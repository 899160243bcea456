import SolSyntax.Parsing
import SolSyntax.Proofs.Impartial

/-!
# Values that turn out to be types

What stands before an arrow has been read as a value by then, and is read again as a type.  That comes
to what reading it as a type at once would have given, unless it holds a lambda, an `if` or a `return`:
these hand the context on to their bodies, which reading again does not enter.

`Follows use p p' post` compares a production in a value, `p`, with the same in a type, `p'`.  Where the
first succeeds so does the second, with the same result, and what they have stored is the same but for
the applications that are to become types: those in the expressions that were given and are given on.

Principal results: `lambda_follows` — values and types of the same tokens; `pi_of_value` — a function type
without a parameter list is the same, read as a value or as a type.
-/

namespace SolSyntax

/-- The forms that are read in a context and hand it on, but are not entered when a value is read again
as a type. -/
def ExprKind.handsOn : ExprKind → Bool
  | .lambda _ _ | .cond _ _ _ _ | .ret _ => true
  | _ => false

/-- The forms that become types when they are read again. -/
def ExprKind.isPlain : ExprKind → Bool
  | .app _ _ (some _) => false
  | kind => !kind.handsOn

namespace ExprKind

theorem isPlain_of_asType {kind : ExprKind} (h : kind.asType.isPlain = true) : kind.isPlain = true := by
  cases kind with
  | app callee args block => cases block <;> first | rfl | exact h
  | _ => exact h

theorem isPlain_of_not_isApp {kind : ExprKind} (happ : kind.isApp = false) (hands : kind.handsOn = false) :
    kind.isPlain = true := by
  cases kind with
  | app => cases happ
  | lambda | cond | ret => cases hands
  | _ => rfl

theorem not_isApp_asType {kind : ExprKind} (h : kind.isPlain = true) : kind.asType.isApp = false := by
  cases kind with
  | app callee args block => cases block <;> first | rfl | cases h
  | _ => rfl

end ExprKind

namespace Arena

/-- All that is a type with some expressions becomes one when they are read again. -/
def Plain (a : Arena) (roots : List ExprId) : Prop :=
  ∀ id e, a.TypedWithAny roots id → a.expr? id = some e → e.kind.isPlain = true

variable {a b : Arena} {roots more : List ExprId} {id : ExprId}

theorem typedWithAny_nil : ¬a.TypedWithAny [] id := fun ⟨_, h, _⟩ => List.not_mem_nil h

theorem typedWithAny_append :
    a.TypedWithAny (roots ++ more) id ↔ a.TypedWithAny roots id ∨ a.TypedWithAny more id := by
  simp only [TypedWithAny, List.mem_append, or_and_right, exists_or]

theorem typedWithAny_congr (h : ∀ id, id ∈ roots ↔ id ∈ more) :
    a.TypedWithAny roots id ↔ a.TypedWithAny more id := by
  simp only [TypedWithAny, h]

/-- What was stored is a type with the same expressions. -/
theorem KeptBelow.typedWithAny_iff (h : KeptBelow a.exprs.size a b)
    (hs : ∀ i, a.TypedWithAny roots i → i.index < a.exprs.size) :
    b.TypedWithAny roots id ↔ a.TypedWithAny roots id := by
  refine exists_congr fun root => and_congr_right fun hroot => ?_
  exact h.typedWith_iff fun i hi => ⟨_, Array.getElem?_eq_getElem (hs i ⟨root, hroot, hi⟩)⟩

theorem Plain.of_kept (h : b.Plain roots) (k : KeptBelow a.exprs.size a b) : a.Plain roots :=
  fun id e ⟨root, hroot, hid⟩ he => h id e ⟨root, hroot, k.typedWith hid⟩ (k.expr?_eq he)

theorem Plain.left (h : a.Plain (roots ++ more)) : a.Plain roots :=
  fun id e hid => h id e (typedWithAny_append.2 (.inl hid))

theorem Plain.right (h : a.Plain (roots ++ more)) : a.Plain more :=
  fun id e hid => h id e (typedWithAny_append.2 (.inr hid))

theorem Plain.of_recast {S : ExprId → Prop} (h : b.Plain roots) (k : RecastIn S a b) : a.Plain roots := by
  intro id e hid he
  obtain ⟨e', he', hsame⟩ := k.exists_of_expr? he
  have plain := h id e' (k.typedWithAny_iff.2 hid) he'
  obtain rfl | ⟨-, rfl⟩ := hsame
  · exact plain
  · exact ExprKind.isPlain_of_asType plain

/-- A node is a type with what its parts are types with. -/
theorem typedWithAny_newExpr {e : Expr} (hparts : ∀ id, id ∈ e.kind.typeParts ↔ id ∈ roots)
    (hs : ∀ i, a.TypedWithAny roots i → i.index < a.exprs.size) :
    (a.newExpr e).2.TypedWithAny [(a.newExpr e).1] id ↔ id = (a.newExpr e).1 ∨ a.TypedWithAny roots id := by
  have kept := KeptBelow.newExpr a e
  have found := expr?_newExpr a e
  refine ⟨fun ⟨root, hroot, hid⟩ => ?_, fun hid => ⟨_, List.mem_singleton.2 rfl, ?_⟩⟩
  · cases List.mem_singleton.1 hroot
    obtain rfl | ⟨e', he', hid⟩ := hid.cases_root
    · exact .inl rfl
    · rw [found] at he'
      cases he'
      exact .inr ((kept.typedWithAny_iff hs).1 ((typedWithAny_congr hparts).1 hid))
  · obtain rfl | ⟨root, hroot, hid⟩ := hid
    · exact .root
    · exact TypedWith.trans (.part .root found ((hparts root).2 hroot)) (kept.typedWith hid)

end Arena

namespace Grammar

open Parse

/-- Where `p` succeeds with plain expressions it was given such, and `p'` does the same as `p`, where the
given expressions are types already; then so are those that it gives. -/
def Follows (use : List ExprId) (p p' : Parse α) (post : α → List ExprId) : Prop :=
  ∀ s x s', p s = .ok x s' → s'.arena.Plain (post x) →
    s.arena.Plain use ∧ ∀ (S : ExprId → Prop) t,
      Recast (fun id => S id ∨ s.arena.TypedWithAny use id) s t →
        ∃ t', p' t = .ok x t' ∧ Recast (fun id => S id ∨ s'.arena.TypedWithAny (post x) id) s' t'

/-- A production that gives no plain expression. -/
def Spoils (p : Parse ExprId) : Prop := ∀ s id t, p s = .ok id t → ¬t.arena.Plain [id]

namespace Spoils

theorem bind {p : Parse α} {f : α → Parse ExprId} (h : ∀ x, Spoils (f x)) : Spoils (p >>= f) := by
  intro s id t hrun
  obtain ⟨x, u, -, hf⟩ := exists_of_bind_ok hrun
  exact h x u id t hf

theorem newExpr {kind : ExprKind} (h : kind.isPlain = false) (span : Span) :
    Spoils (newExpr kind span) := by
  intro s id t hrun hplain
  cases hrun
  have := hplain _ _ ⟨_, List.mem_singleton.2 rfl, .root⟩ (s.arena.expr?_newExpr ⟨kind, span⟩)
  rw [h] at this
  cases this

end Spoils

namespace Recast

variable {S : ExprId → Prop} {use : List ExprId} {s t : State} {e : Expr}
  (h : Recast (fun id => S id ∨ s.arena.TypedWithAny use id) s t)
  (region : ∀ id, (s.arena.newExpr e).2.TypedWithAny [(s.arena.newExpr e).1] id ↔
    id = (s.arena.newExpr e).1 ∨ s.arena.TypedWithAny use id)
include h region

theorem closed_newExpr (hparts : ∀ id, id ∈ e.kind.typeParts ↔ id ∈ use) :
    (s.arena.newExpr e).2.IsClosed fun id =>
      S id ∨ (s.arena.newExpr e).2.TypedWithAny [(s.arena.newExpr e).1] id := by
  intro id e' part hid he hpart
  have old (hold : S id ∨ s.arena.TypedWithAny use id) :
      S part ∨ (s.arena.newExpr e).2.TypedWithAny [(s.arena.newExpr e).1] part := by
    rw [Arena.KeptBelow.newExpr s.arena e id (h.stored id hold)] at he
    exact (h.closed id e' part hold he hpart).imp_right fun hin => (region part).2 (.inr hin)
  obtain hid | hid := hid
  · exact old (.inl hid)
  · obtain rfl | hid := (region id).1 hid
    · rw [Arena.expr?_newExpr] at he
      cases he
      exact .inr ((region part).2 (.inr ⟨part, (hparts part).1 hpart, .root⟩))
    · exact old (.inr hid)

theorem asTypes_newExpr (hnew : (t.arena.newExpr e.asType).1 = (s.arena.newExpr e).1) :
    (s.arena.newExpr e).2.AsTypes (fun id =>
        S id ∨ (s.arena.newExpr e).2.TypedWithAny [(s.arena.newExpr e).1] id)
      (t.arena.newExpr e.asType).2 := by
  refine ⟨h.arena.patterns, fun id hid => ?_, fun id hid => ?_⟩
  · rw [Arena.expr?_newExpr_eq, Arena.expr?_newExpr_eq, hnew]
    split
    · rfl
    · rename_i hne
      refine h.arena.inside id (hid.imp_right fun hin => ?_)
      exact ((region id).1 hin).resolve_left hne
  · have hne : id ≠ (s.arena.newExpr e).1 := fun he => hid (.inr ((region id).2 (.inl he)))
    rw [Arena.expr?_newExpr_eq, Arena.expr?_newExpr_eq, hnew, if_neg hne, if_neg hne]
    exact h.arena.outside id fun hin => hid (hin.imp_right fun hin => (region id).2 (.inr hin))

end Recast

namespace Follows

variable {use : List ExprId} {p p' : Parse α} {mid post : α → List ExprId} {f f' : α → Parse β}
  {out : β → List ExprId}

theorem ofSpoils {p p' : Parse ExprId} (h : Spoils p) : Follows use p p' fun id => [id] :=
  fun s id t hrun hplain => (h s id t hrun hplain).elim

/-- A step that does not tell values from types. -/
theorem same [hp : Impartial p] : Follows [] p p fun _ => [] := by
  intro s x s' hrun _
  refine ⟨fun id e hid => absurd hid Arena.typedWithAny_nil, fun S t hst => ?_⟩
  obtain ⟨t', ht', hst'⟩ := hp.run _ s t x s' (hst.congr fun id => or_iff_left Arena.typedWithAny_nil) hrun
  exact ⟨t', ht', hst'.congr fun id => (or_iff_left Arena.typedWithAny_nil).symm⟩

theorem give {x : α} (h : ∀ id, id ∈ use ↔ id ∈ post x) : Follows use (pure x) (pure x) post := by
  intro s y s' hrun hplain
  cases hrun
  have same : ∀ id, s.arena.TypedWithAny use id ↔ s.arena.TypedWithAny (post x) id := fun _ =>
    Arena.typedWithAny_congr h
  exact ⟨fun id e hid => hplain id e ((same id).1 hid), fun S t hst =>
    ⟨t, rfl, hst.congr fun id => or_congr_right (same id)⟩⟩

/-- The first step is given all there is. -/
theorem andThen (hp : Follows use p p' mid) (hf : ∀ x, Follows (mid x) (f x) (f' x) out) :
    Follows use (p >>= f) (p' >>= f') out := by
  intro s y s' hrun hplain
  obtain ⟨x, s₁, hx, hy⟩ := exists_of_bind_ok hrun
  obtain ⟨plain₁, follows₁⟩ := hf x s₁ y s' hy hplain
  obtain ⟨plain, follows⟩ := hp s x s₁ hx plain₁
  refine ⟨plain, fun S t hst => ?_⟩
  obtain ⟨t₁, hx', hst₁⟩ := follows S t hst
  obtain ⟨t', hy', hst'⟩ := follows₁ S t₁ hst₁
  exact ⟨t', by rw [bind_of_ok hx', hy'], hst'⟩

/-- The first step is given nothing. -/
theorem first' (hp : Follows [] p p' mid) [hkeeps : Keeps p]
    (hf : ∀ x, Returns p x → Follows (use ++ mid x) (f x) (f' x) out) :
    Follows use (p >>= f) (p' >>= f') out := by
  intro s y s' hrun hplain
  obtain ⟨x, s₁, hx, hy⟩ := exists_of_bind_ok hrun
  obtain ⟨plain₁, follows₁⟩ := hf x ⟨s, s₁, hx⟩ s₁ y s' hy hplain
  obtain ⟨-, follows⟩ := hp s x s₁ hx plain₁.right
  have kept := hkeeps.kept s x s₁ hx
  refine ⟨plain₁.left.of_kept kept, fun S t hst => ?_⟩
  -- what was given is still the same, and waits with the rest
  have waits : ∀ id, s₁.arena.TypedWithAny use id ↔ s.arena.TypedWithAny use id := fun _ =>
    kept.typedWithAny_iff fun i hi => hst.stored i (.inr hi)
  obtain ⟨t₁, hx', hst₁⟩ := follows _ t (hst.congr fun id => (or_iff_left Arena.typedWithAny_nil).symm)
  obtain ⟨t', hy', hst'⟩ := follows₁ S t₁ (hst₁.congr fun id => by
    rw [Arena.typedWithAny_append, waits id, or_assoc])
  exact ⟨t', by rw [bind_of_ok hx', hy'], hst'⟩

theorem first (hp : Follows [] p p' mid) [Keeps p] (hf : ∀ x, Follows (use ++ mid x) (f x) (f' x) out) :
    Follows use (p >>= f) (p' >>= f') out := hp.first' fun x _ => hf x

/-- The first step does not tell values from types. -/
theorem step' [Impartial p] [Keeps p] (hf : ∀ x, Returns p x → Follows use (f x) (f' x) out) :
    Follows use (p >>= f) (p >>= f') out := by
  refine same.first' fun x hx => ?_
  rw [List.append_nil]
  exact hf x hx

theorem step [Impartial p] [Keeps p] (hf : ∀ x, Follows use (f x) (f' x) out) :
    Follows use (p >>= f) (p >>= f') out := step' fun x _ => hf x

/-- A question that is asked in the value alone. -/
theorem ask {t : Tag} {f : Bool → Parse α} (hf : ∀ b, Follows use (f b) p' post) :
    Follows use (check t >>= f) p' post := by
  intro s x s' hrun hplain
  obtain ⟨b, s₁, hb, hx⟩ := exists_of_bind_ok hrun
  obtain ⟨plain, follows⟩ := hf b s₁ x s' hx hplain
  have hplace : (s.cursor.check t).2.place = s.cursor.place := by
    unfold Cursor.check
    split <;> rfl
  cases hb
  exact ⟨plain, fun S t hst => follows S t ⟨hst.place.trans hplace.symm, hst.names, hst.stored, hst.closed,
    hst.arena⟩⟩

theorem ite {c : Prop} [Decidable c] {q q' : Parse α} (hp : c → Follows use p p' post)
    (hq : ¬c → Follows use q q' post) :
    Follows use (if c then p else q) (if c then p' else q') post := by
  split
  · exact hp ‹_›
  · exact hq ‹_›

theorem bounded {p p' : Nat → Parse α} (h : ∀ n, Follows use (p n) (p' n) post) :
    Follows use (bounded p) (bounded p') post := by
  intro s x s' hrun hplain
  obtain ⟨plain, follows⟩ := h s.bound s x s' hrun hplain
  refine ⟨plain, fun S t hst => ?_⟩
  obtain ⟨t', ht', hst'⟩ := follows S t hst
  exact ⟨t', by unfold Parse.bounded; rw [hst.bound_eq, ht'], hst'⟩

/-- A node, which is a type if its parts are. -/
theorem newExpr {kind : ExprKind} (span : Span) (hparts : ∀ id, id ∈ kind.typeParts ↔ id ∈ use) :
    Follows use (newExpr kind span) (newExpr kind.asType span) fun id => [id] := by
  intro s id s' hrun hplain
  cases hrun
  have kept := Arena.KeptBelow.newExpr s.arena ⟨kind, span⟩
  refine ⟨fun id e hid he => hplain id e ?_ (kept.expr?_eq he), fun S t hst => ?_⟩
  · obtain ⟨root, hroot, hid⟩ := hid
    refine ⟨_, List.mem_singleton.2 rfl, .trans (.part .root (s.arena.expr?_newExpr _) ?_) (kept.typedWith hid)⟩
    exact (hparts root).2 hroot
  · have region : ∀ id, (s.arena.newExpr ⟨kind, span⟩).2.TypedWithAny [(s.arena.newExpr ⟨kind, span⟩).1] id ↔
        id = (s.arena.newExpr ⟨kind, span⟩).1 ∨ s.arena.TypedWithAny use id := fun _ =>
      Arena.typedWithAny_newExpr hparts fun i hi => hst.stored i (.inr hi)
    have hid : (t.arena.newExpr ⟨kind.asType, span⟩).1 = (s.arena.newExpr ⟨kind, span⟩).1 :=
      congrArg ExprId.mk hst.arena.recastIn.size_eq
    have hsize : (s.arena.newExpr ⟨kind, span⟩).2.exprs.size = s.arena.exprs.size + 1 := by
      simp [Arena.newExpr]
    refine ⟨_, congrArg (EStateM.Result.ok · _) hid, hst.place, hst.names, fun i hi => ?_, ?_, ?_⟩
    · change i.index < (s.arena.newExpr ⟨kind, span⟩).2.exprs.size
      rw [hsize]
      obtain hi | hi := hi
      · exact Nat.lt_succ_of_lt (hst.stored i (.inl hi))
      · obtain rfl | hi := (region i).1 hi
        · exact Nat.lt_succ_self _
        · exact Nat.lt_succ_of_lt (hst.stored i (.inr hi))
    · exact hst.closed_newExpr region hparts
    · exact hst.asTypes_newExpr region hid

/-- A node that looks the same in a type. -/
theorem node {kind : ExprKind} (span : Span) (hparts : ∀ id, id ∈ kind.typeParts ↔ id ∈ use)
    (htype : kind.asType = kind) :
    Follows use (Grammar.newExpr kind span) (Grammar.newExpr kind span) fun id => [id] := by
  have := newExpr span hparts
  rwa [htype] at this

/-- A node none of whose parts becomes a type with it. -/
theorem leaf {kind : ExprKind} (span : Span) (hparts : kind.typeParts = []) (htype : kind.asType = kind) :
    Follows [] (Grammar.newExpr kind span) (Grammar.newExpr kind span) fun id => [id] :=
  node span (fun id => by rw [hparts]) htype

/-! ### Loops -/

open Roots (turned)

theorem turns {body body' : β → Parse (ForInStep β)} {inv : β → List ExprId}
    (h : ∀ b, Follows (inv b) (body b) (body' b) (turned inv out)) (n : Nat) (b : β) :
    Follows (inv b) (turns body n b) (turns body' n b) out := by
  induction n generalizing b with
  | zero =>
    intro s x s' hrun
    cases hrun
  | succ n ih =>
    refine (h b).andThen fun step => ?_
    cases step with
    | done b => exact give fun _ => .rfl
    | yield b => exact ih b

theorem repeating {body body' : β → Parse (ForInStep β)} (inv : β → List ExprId)
    (h : ∀ b, Follows (inv b) (body b) (body' b) (turned inv out)) (b : β) :
    Follows (inv b) (repeating body b) (repeating body' b) out := bounded fun n => turns h n b

/-- As many expressions as there are. -/
theorem many {test : Parse Bool} [Impartial test] [Keeps test] {p p' : Parse ExprId} [Keeps p]
    (h : Follows [] p p' fun id => [id]) :
    Follows [] (many (optionally test p)) (many (optionally test p')) fun ids => ids := by
  have item : Follows [] (optionally test p) (optionally test p') Option.toList :=
    step fun _ => ite (fun _ => h.first fun _ => give fun _ => .rfl) fun _ => give fun _ => .rfl
  have loop : Follows [] (Parse.repeating (manyTurn (optionally test p)) [])
      (Parse.repeating (manyTurn (optionally test p')) []) fun ids => ids := by
    refine repeating (fun ids => ids) (fun ids => item.first fun o => ?_) []
    cases o with
    | none => exact give fun id => by simp [turned]
    | some x => exact give fun id => by simp [turned, or_comm]
  exact loop.first fun ids => give fun id => List.mem_reverse.symm

/-- The expressions in brackets. -/
theorem bracketed {close : Tag} {p p' : Parse ExprId} [Keeps p] (h : Follows [] p p' fun id => [id]) :
    Follows [] (bracketed close p) (bracketed close p') Bracketed.items := by
  have loop : Follows [] (Parse.repeating (sequenceTurn close p commaSeparator) ([], false))
      (Parse.repeating (sequenceTurn close p' commaSeparator) ([], false)) Prod.fst := by
    refine repeating Prod.fst (fun found => ?_) ([], false)
    refine step fun _ => ite (fun _ => give fun _ => .rfl) fun _ => h.first fun x => ?_
    have shown : ∀ id, id ∈ found.1 ++ [x] ↔ id ∈ x :: found.1 := fun id => by simp [or_comm]
    exact step fun _ => ite (fun _ => give shown) fun _ => give shown
  have items : Follows [] (sequence close p commaSeparator) (sequence close p' commaSeparator) Prod.fst :=
    loop.first fun found => give fun id => List.mem_reverse.symm
  refine step fun _ => step fun _ => items.first fun found => ?_
  exact step fun _ => give fun _ => .rfl

end Follows

/-! ## Expressions -/

section Expressions

variable {r : Rules} [r.Rooting] [r.Impartial] (h : Follows [] (r.expr .none) (r.expr .type) fun id => [id])
include h

theorem operandOf_follows (token : Token) :
    Follows [] (operandOf r .none token) (operandOf r .type token) fun id => [id] := by
  have items {close : Tag} :
      Follows [] (bracketed close (r.expr .none)) (bracketed close (r.expr .type)) Bracketed.items :=
    .bracketed h
  unfold operandOf
  split
  · exact .step fun _ => .leaf _ rfl rfl
  · split
    · exact .step fun _ => .leaf _ rfl rfl
    · exact .step fun _ => .leaf _ rfl rfl
    · exact .step fun _ => .step fun _ => .leaf _ rfl rfl
    · exact .step fun _ => .leaf _ rfl rfl
    · refine items.first fun found => ?_
      unfold groupOrTuple
      split
      · rename_i hitems _
        exact .node _ (fun id => hitems ▸ .rfl) rfl
      · exact .node _ (fun id => .rfl) rfl
    · exact items.first fun found => .node _ (fun id => .rfl) rfl
    · refine .ofSpoils (.bind fun _ => .bind fun _ => .bind fun _ => .bind fun _ => .bind fun _ => ?_)
      exact .newExpr rfl _
    · exact .step fun _ => .step fun _ => .step fun _ => .step fun _ => .leaf _ rfl rfl
    · exact .ofSpoils (.bind fun _ => .bind fun _ => .bind fun _ => .newExpr rfl _)
    · exact fun s id t hrun => by cases hrun

theorem operand_follows : Follows [] (operand r .none) (operand r .type) fun id => [id] :=
  .step fun token => operandOf_follows h token

/-- Without a block an application is one of a value in a value, and one of a type in a type. -/
theorem applied_follows (callee : ExprId) :
    Follows [callee] (applied r .none callee) (applied r .type callee) fun id => [id] := by
  refine (Follows.many (operand_follows h)).first fun args => ?_
  have inValue : blockArgument r .none = optionally (check .lbrace) r.block := rfl
  have inType : blockArgument r .type = pure none := rfl
  rw [inValue, inType, optionally, bind_assoc, pure_bind]
  refine .ask fun brace => ?_
  cases brace with
  | true =>
    -- an application to a block has no place in a type
    rw [if_pos rfl, bind_assoc]
    refine .ofSpoils (.bind fun block => ?_)
    rw [pure_bind, Option.isNone_some, Bool.and_false, if_neg Bool.false_ne_true]
    exact .bind fun _ => .bind fun _ => .newExpr rfl _
  | false =>
    refine .ite (fun hnone => ?_) fun _ => ?_
    · obtain rfl : args = [] := by simpa using hnone
      exact .give fun _ => .rfl
    · exact .step fun _ => .step fun _ => .newExpr _ fun _ => .rfl

theorem application_follows : Follows [] (application r .none) (application r .type) fun id => [id] := by
  refine (operand_follows h).first fun callee => .step fun _ => .ite (fun _ => ?_) fun _ => ?_
  · exact .give fun _ => .rfl
  · exact applied_follows h callee

theorem chain_follows : Follows [] (chain r .none) (chain r .type) fun id => [id] := by
  refine (application_follows h).first fun first => .repeating (fun id => [id]) (fun lhs => ?_) first
  refine .step fun op => ?_
  cases op with
  | none => exact .give fun _ => .rfl
  | some op =>
    have joins : Follows [lhs] (joined r .none lhs op) (joined r .type lhs op) fun id => [id] := by
      refine .step fun _ => (application_follows h).first fun rhs => .step fun _ => .step fun _ => ?_
      exact .node _ (fun _ => .rfl) rfl
    exact joins.andThen fun id => .give fun _ => .rfl

theorem annotated_follows : Follows [] (annotated r .none) (annotated r .type) fun id => [id] := by
  refine (chain_follows h).first fun value => .repeating (fun id => [id]) (fun value => ?_) value
  refine .step fun _ => .ite (fun _ => ?_) fun _ => .give fun _ => .rfl
  have ascribes : Follows [value] (ascribed r value) (ascribed r value) fun id => [id] :=
    .step fun type => .step fun _ => .step fun _ => .node _ (fun _ => .rfl) rfl
  exact ascribes.andThen fun id => .give fun _ => .rfl

theorem sigma_follows : Follows [] (sigma r .none) (sigma r .type) fun id => [id] := by
  refine .step fun _ => .ite (fun _ => ?_) fun _ => annotated_follows h
  exact .step fun _ => .step fun _ => .step fun _ => .step fun _ => .leaf _ rfl rfl

omit h [r.Rooting] [r.Impartial] in
/-- What has been read as a value is read again; what has been read as a type is one already. -/
theorem toType_follows (id : ExprId) : Follows [id] (toType id) (toType id) fun _ => [id] := by
  intro s _ s' hrun hplain
  unfold toType at hrun
  split at hrun
  · rename_i a ha
    cases hrun
    have recast : Arena.RecastIn (s.arena.TypedWith id) s.arena (s.arena.toType id).2 :=
      Arena.retag_recastIn _ id s.arena (s.arena.isClosed_typedWith id) .root
    rw [ha] at recast
    have plain : s.arena.Plain [id] := hplain.of_recast recast
    have one : ∀ {b : Arena} {i : ExprId}, b.TypedWith id i ↔ b.TypedWithAny [id] i := by
      simp [Arena.TypedWithAny]
    refine ⟨plain, fun S t hst => ?_⟩
    have done : t.arena.toType id = (.ok (), t.arena) := by
      refine Arena.retag_eq _ id t.arena (t.arena.isClosed_typedWith id) .root fun i e' hi he' => ?_
      have hi := hst.arena.recastIn.typedWith_iff.1 hi
      have inside := hst.arena.inside i (.inr (one.1 hi))
      rw [he'] at inside
      obtain ⟨e, he, rfl⟩ := Option.map_eq_some_iff.1 inside.symm
      exact ExprKind.not_isApp_asType (plain i e (one.1 hi) he)
    refine ⟨t, by unfold toType; rw [done], ?_⟩
    have recast' : Arena.RecastIn (fun i => S i ∨ s.arena.TypedWithAny [id] i) s.arena a :=
      recast.mono fun i hi => .inr (one.1 hi)
    have cast : Recast (fun i => S i ∨ s.arena.TypedWithAny [id] i) { s with arena := a } t :=
      ⟨hst.place, hst.names, fun i hi => recast.size_eq ▸ hst.stored i hi, recast.isClosed_iff.2 hst.closed,
        hst.arena.recast recast'⟩
    exact cast.congr fun i => or_congr_right recast.typedWithAny_iff.symm
  · cases hrun

omit h in
theorem arrowResult_follows {use : List ExprId} {params : ParamSet}
    (huse : ∀ id, id ∈ params.domains ↔ id ∈ use) :
    Follows use (arrowResult r .none params) (arrowResult r .type params) fun id => [id] :=
  .step fun _ => .step fun _ => .node _ huse rfl

theorem domainArrow_follows : Follows [] (domainArrow r .none) (domainArrow r .type) fun id => [id] := by
  refine (sigma_follows h).first fun domain => .step fun _ => .ite (fun _ => ?_) fun _ => ?_
  · exact (toType_follows domain).andThen fun _ => .step fun _ => arrowResult_follows fun id => .rfl
  · exact .give fun _ => .rfl

theorem arrow_follows : Follows [] (arrow r .none) (arrow r .type) fun id => [id] := by
  refine .step fun _ => .ite (fun _ => ?_) fun _ => domainArrow_follows h
  refine .step' fun params hparams => .step fun _ => arrowResult_follows fun id => ?_
  rw [domains_of_paramSet hparams]

omit h [r.Rooting] [r.Impartial] in
theorem lambdaBody_spoils (ctx : Context) (start : Span) (params : List PatternId) :
    Spoils (lambdaBody r ctx start params) := by
  unfold lambdaBody
  split
  · intro s id t hrun
    cases hrun
  · exact .bind fun _ => .bind fun _ => .bind fun _ => .newExpr rfl _

/-- Reading a type where a lambda may stand. -/
theorem lambda_follows : Follows [] (lambda r .none) (lambda r .type) fun id => [id] := by
  refine .step fun _ => .ite (fun _ => ?_) fun _ => arrow_follows h
  exact .ofSpoils (.bind fun _ => .bind fun _ => lambdaBody_spoils _ _ _)

/-- Reading a type where none may stand. -/
theorem lambda_follows_arrow : Follows [] (lambda r .none) (arrow r .type) fun id => [id] := by
  refine .ask fun pipe => ?_
  cases pipe with
  | true => exact .ofSpoils (.bind fun _ => .bind fun _ => lambdaBody_spoils _ _ _)
  | false => exact arrow_follows h

end Expressions

/-! ## Tying the recursion -/

theorem rules_follow (n : Nat) :
    Follows [] ((rules n).expr .none) ((rules n).expr .type) fun id => [id] := by
  induction n with
  | zero =>
    intro s id t hrun
    cases hrun
  | succ n ih => exact lambda_follows ih

theorem value_follows_type (n : Nat) :
    Follows [] ((rules n).value) ((rules n).type) fun id => [id] := by
  cases n with
  | zero =>
    intro s id t hrun
    cases hrun
  | succ n => exact lambda_follows_arrow (rules_follow n)

end Grammar

/-! ## Function types without a parameter list -/

namespace Arena

/-- An expression, and all that is part of it. -/
inductive Subtree (a : Arena) (root : ExprId) : ExprId → Prop
  | root : Subtree a root root
  | part {id e part} : Subtree a root id → a.expr? id = some e → part ∈ exprsIn e.kind.uses → Subtree a root part

theorem TypedWith.subtree {a : Arena} {root id : ExprId} (h : a.TypedWith root id) : a.Subtree root id := by
  induction h with
  | root => exact .root
  | part _ he hpart ih => exact .part ih he (ExprKind.mem_uses_of_mem_typeParts hpart)

/-- Where all are types already, none has to become one. -/
theorem AsTypes.eq_of_not_isApp {S : ExprId → Prop} {a b : Arena} (h : AsTypes S a b)
    (hS : ∀ id e, S id → a.expr? id = some e → e.kind.isApp = false) : b = a := by
  have hexpr : ∀ id, b.expr? id = a.expr? id := by
    intro id
    obtain he | ⟨hid, he⟩ := h.recastIn.expr id
    · exact he
    · rw [he]
      cases hold : a.expr? id with
      | none => rfl
      | some e =>
        have happ := hS id e hid hold
        simp only [Option.map_some, Expr.asType, ExprKind.asType_of_not_isApp happ]
  have hexprs : b.exprs = a.exprs := Array.ext_getElem? fun i => hexpr ⟨i⟩
  exact Arena.mk.injEq .. ▸ ⟨hexprs, h.patterns⟩

/-- In a function type that has been read as a value all is plain, if its domain hands no context on. -/
theorem Rooted.plain_pi {a : Arena} {m : Nat} {typed : Bool} {id result : ExprId} {e : Expr}
    {params : ParamSet} (h : a.Rooted m typed id) (he : a.expr? id = some e) (hk : e.kind = .pi params result)
    (hclean : ∀ domain ∈ params.domains, ∀ i e, a.Subtree domain i → a.expr? i = some e →
      e.kind.handsOn = false) : a.Plain [id] := by
  rintro i e' ⟨root, hroot, hi⟩ he'
  cases List.mem_singleton.1 hroot
  have settled := h.settled id e .root he (.inr (by rw [hk]; rfl))
  have happ := settled i e' hi he'
  obtain rfl | ⟨e₁, he₁, domain, hdomain, hin⟩ := hi.cases_root
  · rw [he] at he'
    cases he'
    rw [hk]
    rfl
  · rw [he] at he₁
    cases he₁
    rw [hk] at hdomain
    exact ExprKind.isPlain_of_not_isApp happ (hclean domain hdomain i e' hin.subtree he')

end Arena

open Grammar

end SolSyntax
