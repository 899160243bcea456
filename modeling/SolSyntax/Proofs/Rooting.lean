import SolSyntax.Proofs.Making
import SolSyntax.Proofs.Recasting

/-!
# Where the parts of a type lie

Whatever a production stores it stores behind what was there before, and it leaves that alone.  So does
the one step that changes what is stored, reading a domain again as a type: all that becomes a type with
the domain was stored by the production that has read it.

Principal results: `Keeps` — a property of all productions but the rereading of types, with which
`arrow_roots` deals; `Rules.rooting_rules` — what the readers of expressions store is `Rooted`, and settled
where they read a type.
-/

namespace SolSyntax

namespace Arena

/-- The expressions before `m` are the same. -/
def KeptBelow (m : Nat) (a b : Arena) : Prop := ∀ id : ExprId, id.index < m → b.expr? id = a.expr? id

namespace KeptBelow

variable {m n : Nat} {a b c : Arena} {root id : ExprId}

theorem refl (m : Nat) (a : Arena) : KeptBelow m a a := fun _ _ => rfl

theorem mono (h : KeptBelow n a b) (hmn : m ≤ n) : KeptBelow m a b :=
  fun id hid => h id (Nat.lt_of_lt_of_le hid hmn)

theorem trans (h : KeptBelow m a b) (k : KeptBelow m b c) : KeptBelow m a c :=
  fun id hid => (k id hid).trans (h id hid)

theorem newExpr (a : Arena) (e : Expr) : KeptBelow a.exprs.size a (a.newExpr e).2 :=
  fun _ hid => expr?_newExpr_of_lt a e hid

theorem le_size (h : KeptBelow m a b) (hm : m ≤ a.exprs.size) : m ≤ b.exprs.size := by
  cases m with
  | zero => exact Nat.zero_le _
  | succ m =>
    obtain ⟨e, he⟩ : ∃ e, a.expr? ⟨m⟩ = some e := ⟨a.exprs[m], Array.getElem?_eq_getElem hm⟩
    exact (Array.getElem?_eq_some_iff.1 ((h ⟨m⟩ (Nat.lt_succ_self m)).trans he)).1

/-- All that was stored is the same. -/
theorem expr?_eq (h : KeptBelow a.exprs.size a b) {e : Expr} (he : a.expr? id = some e) :
    b.expr? id = some e := (h id (Array.getElem?_eq_some_iff.1 he).1).trans he

theorem typedWith (h : KeptBelow a.exprs.size a b) (k : a.TypedWith root id) : b.TypedWith root id := by
  induction k with
  | root => exact .root
  | part _ he hpart ih => exact .part ih (h.expr?_eq he) hpart

/-- What is a type with a root whose parts are stored is the same. -/
theorem typedWith_iff (h : KeptBelow a.exprs.size a b)
    (hs : ∀ i, a.TypedWith root i → ∃ e, a.expr? i = some e) :
    b.TypedWith root id ↔ a.TypedWith root id := by
  refine ⟨fun k => k.mem (fun i e' part hi he' hpart => ?_) .root, h.typedWith⟩
  obtain ⟨e, he⟩ := hs i hi
  rw [h.expr?_eq he] at he'
  cases he'
  exact hi.part he hpart

end KeptBelow

namespace Rooted

variable {m n : Nat} {typed : Bool} {a b : Arena} {root id : ExprId}

theorem exists_expr (h : a.Rooted m typed root) (hid : a.TypedWith root id) :
    ∃ e, a.expr? id = some e := by
  obtain ⟨e, he, -⟩ := h.stored id hid
  exact ⟨e, he⟩

theorem lt_size (h : a.Rooted m typed root) : root.index < a.exprs.size := by
  obtain ⟨e, he⟩ := h.exists_expr .root
  exact (Array.getElem?_eq_some_iff.1 he).1

theorem mono (h : a.Rooted n typed root) (hmn : m ≤ n) : a.Rooted m typed root := by
  refine ⟨fun id hid => ?_, h.settled⟩
  obtain ⟨e, he, hn, hlt⟩ := h.stored id hid
  exact ⟨e, he, Nat.le_trans hmn hn, hlt⟩

theorem settled_kept (h : a.Rooted m typed root) (hs : a.Settled root)
    (k : KeptBelow a.exprs.size a b) : b.Settled root := by
  intro id e' hid he'
  have hid := (k.typedWith_iff fun i => h.exists_expr).1 hid
  obtain ⟨e, he⟩ := h.exists_expr hid
  rw [k.expr?_eq he] at he'
  cases he'
  exact hs id _ hid he

/-- What is stored later does not matter. -/
theorem kept (h : a.Rooted m typed root) (k : KeptBelow a.exprs.size a b) : b.Rooted m typed root := by
  have same : ∀ id, b.TypedWith root id ↔ a.TypedWith root id := fun _ =>
    k.typedWith_iff fun i => h.exists_expr
  refine ⟨fun id hid => ?_, fun id e' hid he' hsealed => ?_⟩
  · obtain ⟨e, he, hm, hlt⟩ := h.stored id ((same id).1 hid)
    exact ⟨e, k.expr?_eq he, hm, hlt⟩
  · have hid := (same id).1 hid
    obtain ⟨e, he⟩ := h.exists_expr hid
    rw [k.expr?_eq he] at he'
    cases he'
    exact (h.part hid).settled_kept (h.settled id _ hid he hsealed) k

/-- Reading as a type leaves alone what lies before. -/
theorem keptBelow_toType (h : a.Rooted m typed root) : KeptBelow m a (a.toType root).2 := by
  intro id hid
  obtain he | ⟨hin, -⟩ := (retag_recastIn _ root a (a.isClosed_typedWith root) .root).expr id
  · exact he
  · exact absurd (h.le_index hin) (Nat.not_le_of_lt hid)

/-- A node around rooted parts. -/
theorem newExpr {e : Expr} (hm : m ≤ a.exprs.size) (hparts : ∀ part ∈ e.kind.typeParts, a.Rooted m typed part)
    (happ : typed = true → e.kind.isApp = false)
    (hsealed : e.kind.isSealed = true → ∀ part ∈ e.kind.typeParts, a.Settled part) :
    (a.newExpr e).2.Rooted m typed (a.newExpr e).1 := by
  have kept := KeptBelow.newExpr a e
  have parts := fun part hpart => (hparts part hpart).kept kept
  have found := expr?_newExpr a e
  refine ⟨fun id hid => ?_, fun id e' hid he' htype => ?_⟩
  · obtain rfl | ⟨e₁, he₁, part, hpart, hid⟩ := hid.cases_root
    · exact ⟨e, found, hm, fun part hpart => (hparts part hpart).lt_size⟩
    · rw [found] at he₁
      cases he₁
      exact (parts part hpart).stored id hid
  · obtain rfl | ⟨e₁, he₁, part, hpart, hid⟩ := hid.cases_root
    · rw [found] at he'
      cases he'
      rcases htype with rfl | htype
      · exact .of_parts found (happ rfl) fun part hpart => (parts part hpart).all_settled
      · have happ : e.kind.isApp = false := by
          cases hk : e.kind <;> rw [hk] at htype <;> first | rfl | cases htype
        exact .of_parts found happ fun part hpart =>
          (hparts part hpart).settled_kept (hsealed htype part hpart) kept
    · rw [found] at he₁
      cases he₁
      exact (parts part hpart).settled id e' hid he' htype

end Rooted

end Arena

namespace Grammar

open Parse

/-! ## Steps that leave alone what was there -/

/-- A step that changes nothing that was stored before it. -/
class Keeps (p : Parse α) : Prop where
  kept : ∀ s x t, p s = .ok x t → s.arena.KeptBelow s.arena.exprs.size t.arena

namespace Keeps

variable {p : Parse α}

theorem ofQuiet [hq : Quiet p] : Keeps p := by
  refine ⟨fun s x t h => ?_⟩
  have harena := hq.arena s
  rw [h] at harena
  rw [show t.arena = s.arena from harena]
  exact .refl _ _

theorem bind [hp : Keeps p] {f : α → Parse β} [hf : ∀ x, Keeps (f x)] : Keeps (p >>= f) := by
  refine ⟨fun s y t h => ?_⟩
  obtain ⟨x, u, hx, hy⟩ := exists_of_bind_ok h
  have first := hp.kept s x u hx
  exact first.trans (((hf x).kept u y t hy).mono (first.le_size (Nat.le_refl _)))

theorem within [hp : Keeps p] (what : Construct) : Keeps (within what p) := by
  refine ⟨fun s x t h => ?_⟩
  unfold Parse.within at h
  cases e : p s with
  | ok y u =>
    rw [e] at h
    cases h
    exact hp.kept s _ _ e
  | error y u =>
    rw [e] at h
    cases h

instance : Sequential @Keeps where
  pure _ := ofQuiet
  bind _ _ := bind
  exhausted := ofQuiet
  within what _ := within what
  bounded h := ⟨fun s => (h s.bound).kept s⟩

instance : Closed @Keeps :=
  .of_both (P := @Quiet) (Q := @Quiet) fun _ _ => ofQuiet

theorem newExpr (kind : ExprKind) (span : Span) : Keeps (newExpr kind span) :=
  ⟨fun s _ _ h => by cases h; exact .newExpr s.arena ⟨kind, span⟩⟩

instance : Storing @Keeps where
  newPattern _ _ := ⟨fun _ _ _ h => by cases h; exact .refl _ _⟩
  newExpr kind _ := newExpr kind

instance : Binding @Keeps := ⟨newExpr⟩

instance [h : Has @Keeps p] : Keeps p := h.has

instance (priority := low) [h : Keeps p] : Has @Keeps p := ⟨h⟩

end Keeps

/-! ## Steps that make expressions -/

/-- A step that makes the expressions `post x` of the expressions `use`: if these are rooted somewhere, so
are those, and what lies before is left alone.  `typed` says whether types are read. -/
def Roots (typed : Bool) (use : List ExprId) (p : Parse α) (post : α → List ExprId) : Prop :=
  ∀ m s x t, p s = .ok x t → m ≤ s.arena.exprs.size → (∀ id ∈ use, s.arena.Rooted m typed id) →
    s.arena.KeptBelow m t.arena ∧ ∀ id ∈ post x, t.arena.Rooted m typed id

namespace Roots

variable {typed : Bool} {use : List ExprId} {p : Parse α} {mid post : α → List ExprId} {f : α → Parse β}
  {out : β → List ExprId}

/-- A step that is given nothing leaves everything alone. -/
theorem keeps (h : Roots typed [] p post) : Keeps p :=
  ⟨fun s x t hrun => (h _ s x t hrun (Nat.le_refl _) fun _ hid => absurd hid List.not_mem_nil).1⟩

theorem give {x : α} (h : ∀ id ∈ post x, id ∈ use) : Roots typed use (pure x) post := by
  intro m s y t hrun hm huse
  cases hrun
  exact ⟨.refl _ _, fun id hid => huse id (h id hid)⟩

/-- The first step is given all there is. -/
theorem andThen (hp : Roots typed use p mid) (hf : ∀ x, Roots typed (mid x) (f x) out) :
    Roots typed use (p >>= f) out := by
  intro m s y t hrun hm huse
  obtain ⟨x, u, hx, hy⟩ := exists_of_bind_ok hrun
  obtain ⟨kept, roots⟩ := hp m s x u hx hm huse
  obtain ⟨kept', roots'⟩ := hf x m u y t hy (kept.le_size hm) roots
  exact ⟨kept.trans kept', roots'⟩

/-- The first step is given nothing. -/
theorem first (hp : Roots typed [] p mid) (hf : ∀ x, Roots typed (use ++ mid x) (f x) out) :
    Roots typed use (p >>= f) out := by
  intro m s y t hrun hm huse
  obtain ⟨x, u, hx, hy⟩ := exists_of_bind_ok hrun
  obtain ⟨kept, roots⟩ := hp _ s x u hx (Nat.le_refl _) fun _ hid => absurd hid List.not_mem_nil
  obtain ⟨kept', roots'⟩ := hf x m u y t hy (Nat.le_trans hm (kept.le_size (Nat.le_refl _))) fun id hid =>
    (List.mem_append.1 hid).elim (fun hid => (huse id hid).kept kept) fun hid => (roots id hid).mono hm
  exact ⟨(kept.mono hm).trans kept', roots'⟩

/-- Of what the first step makes nothing is asked. -/
theorem plain' [hp : Keeps p] (hf : ∀ x, Returns p x → Roots typed use (f x) out) :
    Roots typed use (p >>= f) out := by
  intro m s y t hrun hm huse
  obtain ⟨x, u, hx, hy⟩ := exists_of_bind_ok hrun
  have kept := hp.kept s x u hx
  obtain ⟨kept', roots'⟩ := hf x ⟨s, u, hx⟩ m u y t hy (Nat.le_trans hm (kept.le_size (Nat.le_refl _)))
    fun id hid => (huse id hid).kept kept
  exact ⟨(kept.mono hm).trans kept', roots'⟩

theorem plain [Keeps p] (hf : ∀ x, Roots typed use (f x) out) : Roots typed use (p >>= f) out :=
  plain' fun x _ => hf x

theorem ite {c : Prop} [Decidable c] {q : Parse α} (hp : c → Roots typed use p post)
    (hq : ¬c → Roots typed use q post) : Roots typed use (if c then p else q) post := by
  split
  · exact hp ‹_›
  · exact hq ‹_›

theorem ofFailing (h : ∀ s x t, p s ≠ .ok x t) : Roots typed use p post :=
  fun _ s x t hrun => (h s x t hrun).elim

theorem bounded {p : Nat → Parse α} (h : ∀ n, Roots typed use (p n) post) :
    Roots typed use (bounded p) post := fun m s => h s.bound m s

/-- A node of all its parts. -/
theorem newExpr {kind : ExprKind} (span : Span) (hparts : ∀ part ∈ kind.typeParts, part ∈ use)
    (happ : typed = true → kind.isApp = false)
    (hsealed : kind.isSealed = true → typed = true ∨ kind.typeParts = []) :
    Roots typed use (newExpr kind span) fun id => [id] := by
  intro m s id t hrun hm huse
  cases hrun
  have parts := fun part hpart => huse part (hparts part hpart)
  refine ⟨(Arena.KeptBelow.newExpr _ _).mono hm, fun id hid => ?_⟩
  cases List.mem_singleton.1 hid
  refine .newExpr hm parts happ fun hs part hpart => ?_
  obtain rfl | hnil := hsealed hs
  · exact (parts part hpart).all_settled
  · exact absurd (hnil ▸ hpart) List.not_mem_nil

/-- A node none of whose parts becomes a type with it. -/
theorem newLeaf {kind : ExprKind} (span : Span) (hparts : kind.typeParts = []) (happ : kind.isApp = false) :
    Roots typed use (Grammar.newExpr kind span) fun id => [id] :=
  newExpr span (fun _ hpart => absurd (hparts ▸ hpart) List.not_mem_nil) (fun _ => happ)
    fun _ => .inr hparts

/-- The expressions that are given after a turn of a loop: as before the next turn, or as after the last. -/
def turned (inv out : β → List ExprId) : ForInStep β → List ExprId
  | .done b => out b
  | .yield b => inv b

theorem turns {body : β → Parse (ForInStep β)} {inv : β → List ExprId}
    (h : ∀ b, Roots typed (inv b) (body b) (turned inv out)) (n : Nat) (b : β) :
    Roots typed (inv b) (turns body n b) out := by
  induction n generalizing b with
  | zero => exact ofFailing fun _ _ _ h => by cases h
  | succ n ih =>
    refine (h b).andThen fun step => ?_
    cases step with
    | done b => exact give fun _ hid => hid
    | yield b => exact ih b

theorem repeating {body : β → Parse (ForInStep β)} (inv : β → List ExprId)
    (h : ∀ b, Roots typed (inv b) (body b) (turned inv out)) (b : β) :
    Roots typed (inv b) (repeating body b) out := bounded fun n => turns h n b

/-- As many expressions as there are. -/
theorem many {test : Parse Bool} [Keeps test] {p : Parse ExprId} (h : Roots typed [] p fun id => [id]) :
    Roots typed [] (many (optionally test p)) fun ids => ids := by
  have item : Roots typed [] (optionally test p) Option.toList :=
    plain fun _ => ite (fun _ => h.first fun _ => give fun _ hid => hid) fun _ => give fun _ hid => hid
  have loop : Roots typed [] (Parse.repeating (manyTurn (optionally test p)) []) fun ids => ids := by
    refine repeating (fun ids => ids) (fun ids => item.first fun o => ?_) []
    cases o with
    | none => exact give fun id hid => List.mem_append_left _ hid
    | some x => exact give fun id hid => List.mem_append.2 ((List.mem_cons.1 hid).symm.imp_right (by simp))
  exact loop.first fun ids => give fun id hid => List.mem_reverse.1 hid

/-- The expressions in brackets. -/
theorem bracketed {close : Tag} {p : Parse ExprId} (h : Roots typed [] p fun id => [id]) :
    Roots typed [] (bracketed close p) Bracketed.items := by
  have loop : Roots typed [] (Parse.repeating (sequenceTurn close p commaSeparator) ([], false)) Prod.fst := by
    refine repeating Prod.fst (fun found => ?_) ([], false)
    refine plain fun _ => ite (fun _ => give fun _ hid => hid) fun _ => h.first fun x => ?_
    have shown : ∀ id ∈ x :: found.1, id ∈ found.1 ++ [x] := fun id hid =>
      List.mem_append.2 ((List.mem_cons.1 hid).symm.imp_right (by simp))
    exact plain fun _ => ite (fun _ => give shown) fun _ => give shown
  refine plain fun _ => plain fun _ => ?_
  have items : Roots typed [] (sequence close p commaSeparator) Prod.fst :=
    loop.first fun found => give fun id hid => List.mem_reverse.1 hid
  refine items.first ?_
  exact fun found => plain fun _ => give fun _ hid => hid

end Roots

/-! ## Expressions -/

/-- Readers whose expressions are rooted. -/
class Rules.Rooting (r : Rules) : Prop where
  expr : ∀ ctx, Roots ctx.inType [] (r.expr ctx) fun id => [id]
  arrow : ∀ ctx, Keeps (r.arrow ctx)
  block : Keeps r.block

section Expressions

variable {r : Rules} [h : r.Rooting] (ctx : Context)

instance : r.Have @Keeps := ⟨fun ctx => (h.expr ctx).keeps, h.arrow, h.block⟩

theorem operandOf_roots (token : Token) :
    Roots ctx.inType [] (operandOf r ctx token) fun id => [id] := by
  have items {close : Tag} : Roots ctx.inType [] (bracketed close (r.expr ctx.nested)) Bracketed.items :=
    .bracketed (h.expr ctx.nested)
  unfold operandOf
  split
  · exact .plain fun _ => .newLeaf _ rfl rfl
  · split
    · exact .plain fun _ => .newLeaf _ rfl rfl
    · exact .plain fun _ => .newLeaf _ rfl rfl
    · exact .plain fun _ => .plain fun _ => .newLeaf _ rfl rfl
    · exact .plain fun _ => .newLeaf _ rfl rfl
    · refine items.first fun found => ?_
      unfold groupOrTuple
      split
      · rename_i hitems _
        exact .newExpr _ (fun _ hid => hitems ▸ hid) (fun _ => rfl) fun h => by cases h
      · exact .newExpr _ (fun _ hid => hid) (fun _ => rfl) fun h => by cases h
    · exact items.first fun found => .newExpr _ (fun _ hid => hid) (fun _ => rfl) fun h => by cases h
    · refine .plain fun _ => .plain fun _ => .plain fun _ => .plain fun _ => .plain fun _ => ?_
      exact .newLeaf _ rfl rfl
    · exact .plain fun _ => .plain fun _ => .plain fun _ => .plain fun _ => .newLeaf _ rfl rfl
    · exact .plain fun _ => .plain fun _ => .plain fun _ => .newLeaf _ rfl rfl
    · exact .ofFailing fun _ _ _ h => by cases h

theorem operand_roots : Roots ctx.inType [] (operand r ctx) fun id => [id] :=
  .plain fun token => operandOf_roots ctx token

theorem applied_roots (callee : ExprId) :
    Roots ctx.inType [callee] (applied r ctx callee) fun id => [id] := by
  refine (Roots.many (operand_roots ctx)).first fun args => .plain fun b => .ite (fun _ => ?_) fun _ => ?_
  · exact .give fun _ hid => List.mem_append_left _ hid
  · refine .plain fun _ => .plain fun _ => ?_
    unfold applicationKind
    split
    · rename_i htype
      exact .newExpr _ (fun _ hid => hid) (fun _ => rfl) fun _ => .inl htype
    · rename_i hvalue
      exact .newExpr _ (fun _ hid => hid) (fun htype => absurd htype hvalue) fun h => by cases h

theorem application_roots : Roots ctx.inType [] (application r ctx) fun id => [id] := by
  refine (operand_roots ctx).first fun callee => .plain fun _ => .ite (fun _ => ?_) fun _ => ?_
  · exact .give fun _ hid => hid
  · exact applied_roots ctx callee

theorem chain_roots : Roots ctx.inType [] (chain r ctx) fun id => [id] := by
  refine (application_roots ctx).first fun first => .repeating (fun id => [id]) (fun lhs => ?_) first
  refine .plain fun op => ?_
  cases op with
  | none => exact .give fun _ hid => hid
  | some op =>
    have joins : Roots ctx.inType [lhs] (joined r ctx lhs op) fun id => [id] := by
      refine .plain fun _ => (application_roots ctx).first fun rhs => .plain fun _ => .plain fun _ => ?_
      exact .newExpr _ (fun _ hid => hid) (fun _ => rfl) fun h => by cases h
    exact joins.andThen fun id => .give fun _ hid => hid

theorem annotated_roots : Roots ctx.inType [] (annotated r ctx) fun id => [id] := by
  refine (chain_roots ctx).first fun value => .ite (fun _ => ?_) fun _ => .give fun _ hid => hid
  refine .repeating (fun id => [id]) (fun value => ?_) value
  refine .plain fun _ => .ite (fun _ => ?_) fun _ => .give fun _ hid => hid
  have ascribes : Roots ctx.inType [value] (ascribed r value) fun id => [id] := by
    refine .plain fun type => .plain fun _ => .plain fun _ => ?_
    exact .newExpr _ (fun _ hid => hid) (fun _ => rfl) fun h => by cases h
  exact ascribes.andThen fun id => .give fun _ hid => hid

theorem sigma_roots : Roots ctx.inType [] (sigma r ctx) fun id => [id] := by
  refine .plain fun _ => .ite (fun _ => ?_) fun _ => annotated_roots ctx
  exact .plain fun _ => .plain fun _ => .plain fun _ => .plain fun _ => .newLeaf _ rfl rfl

theorem arrowResult_roots {typed : Bool} {use : List ExprId} (params : ParamSet)
    (huse : ∀ domain ∈ params.domains, domain ∈ use) (htyped : typed = true ∨ params.domains = []) :
    Roots typed use (arrowResult r ctx params) fun id => [id] :=
  .plain fun _ => .plain fun _ => .newExpr _ huse (fun _ => rfl) fun _ => htyped

theorem domainResult_roots (domain : ExprId) :
    Roots ctx.inType [domain] (domainResult r ctx domain) fun id => [id] := by
  intro m s id t hrun hm huse
  obtain ⟨_, u, htype, hrest⟩ := exists_of_bind_ok hrun
  have hroot := huse domain (List.mem_singleton.2 rfl)
  unfold toType at htype
  split at htype
  · rename_i b hb
    cases htype
    have kept := hroot.keptBelow_toType
    rw [hb] at kept
    -- from here on the domain is a type, whatever is read
    have result : Roots true [domain]
        (do arrowResult r ctx (domainParams domain (← exprSpan domain))) fun id => [id] :=
      .plain fun _ => arrowResult_roots ctx _ (fun _ h => h) (.inl rfl)
    obtain ⟨kept', roots⟩ := result m _ id t hrest (kept.le_size hm) fun i hi =>
      List.mem_singleton.1 hi ▸ hroot.toType hb
    exact ⟨kept.trans kept', fun i hi => (roots i hi).of_settled (roots i hi).all_settled _⟩
  · cases htype

theorem domainArrow_roots : Roots ctx.inType [] (domainArrow r ctx) fun id => [id] := by
  refine (sigma_roots ctx).first fun domain => .plain fun _ => .ite (fun _ => ?_) fun _ => ?_
  · exact domainResult_roots ctx domain
  · exact .give fun _ hid => hid

omit h in
/-- In a parameter list no domain stands alone. -/
theorem domains_of_paramSet {params : ParamSet} (hp : Returns (paramSet r) params) : params.domains = [] := by
  obtain ⟨tag, -, hp⟩ := hp.of_bind
  unfold paramSetOf at hp
  split at hp
  · obtain ⟨s, t, hrun⟩ := hp
    cases hrun
  · rename_i kind close hshape
    obtain ⟨found, -, hp⟩ := hp.of_bind
    rw [hp.of_pure]
    cases tag <;> cases hshape <;> rfl

theorem arrow_roots : Roots ctx.inType [] (arrow r ctx) fun id => [id] := by
  refine .plain fun _ => .ite (fun _ => ?_) fun _ => domainArrow_roots ctx
  refine .plain' fun params hparams => .plain fun _ => ?_
  have hnone := domains_of_paramSet hparams
  exact arrowResult_roots ctx params (fun _ h => hnone ▸ h) (.inr hnone)

theorem lambda_roots : Roots ctx.inType [] (lambda r ctx) fun id => [id] := by
  refine .plain fun _ => .ite (fun _ => ?_) fun _ => arrow_roots ctx
  refine .plain fun start => .plain fun params => .ite (fun _ => .ofFailing fun _ _ _ h => by cases h) fun _ => ?_
  exact .plain fun _ => .plain fun _ => .plain fun _ => .newLeaf _ rfl rfl

end Expressions

/-! ## Tying the recursion -/

instance Rules.rooting_rules (n : Nat) : (rules n).Rooting := by
  induction n with
  | zero => exact ⟨fun _ => .ofFailing fun _ _ _ h => (by cases h), fun _ => Sequential.exhausted, Sequential.exhausted⟩
  | succ n ih =>
    refine ⟨fun ctx => lambda_roots ctx, fun ctx => (arrow_roots ctx).keeps, ?_⟩
    exact inferInstanceAs (Keeps (Grammar.block (rules n)))

end Grammar

end SolSyntax
