import SolSyntax.Proofs.ForkAlone

/-!
# A type on one token list, a value on the other

Where the left run of a `Fork` reads a type and the right one a value, both do the same but for two things.  An
application has no block on the left; so the left run stops before a brace that the right one takes, and is stuck
there.  And applications are of types on the left, which nothing tells apart.

Principal results: `Ends.sides` — in one context no run gets stuck; `Sticks` instances — a stuck run stays where it
is; `Veers.bracketed` — it does not get out of brackets.
-/

namespace SolSyntax

/-- The contexts of two runs: one, or that of a type on the left and that of a value on the right. -/
class Context.Looser (ctx ctx' : Context) : Prop where
  cases : ctx' = ctx ∨ ctx = .type ∧ ctx' = .none

namespace Context.Looser

instance (ctx : Context) : Looser ctx ctx := ⟨.inl rfl⟩
instance : Looser .type .none := ⟨.inr ⟨rfl, rfl⟩⟩

/-- What is in brackets is a type or a value. -/
instance (ctx : Context) : Looser .type ctx.nested := by
  obtain ⟨_ | _, _, _⟩ := ctx
  exacts [⟨.inr ⟨rfl, rfl⟩⟩, ⟨.inl rfl⟩]

variable (ctx ctx' : Context) [h : Looser ctx ctx']

instance : Looser ctx.nested ctx'.nested := ⟨h.cases.imp (congrArg nested) (by rintro ⟨rfl, rfl⟩; exact ⟨rfl, rfl⟩)⟩

theorem union_type_eq : ctx'.union .type = ctx.union .type := by
  obtain rfl | ⟨rfl, rfl⟩ := h.cases <;> rfl

theorem allowsAnnotation_eq : ctx'.allowsAnnotation = ctx.allowsAnnotation := by
  obtain rfl | ⟨rfl, rfl⟩ := h.cases <;> rfl

end Context.Looser

namespace Fork

open Grammar Parse
open Context (Looser)

variable {w : Fork} {s t : State} {ctx ctx' : Context}

/-- The left run, which reads a type, is before a brace. -/
structure Stuck (w : Fork) (ctx ctx' : Context) (s : State) : Prop where
  differ : ctx' ≠ ctx
  lt : s.cursor.position < w.index
  brace : s.cursor.currentTag = .lbrace

namespace Stuck

/-- It has no block there. -/
theorem allowsBlockCall [h : Looser ctx ctx'] (hs : w.Stuck ctx ctx' s) : ctx.allowsBlockCall = false := by
  obtain rfl | ⟨rfl, -⟩ := h.cases
  · exact absurd rfl hs.differ
  · rfl

theorem contains (hs : w.Stuck ctx ctx' s) {set : TagSet} (h : set.contains .lbrace = false) :
    set.contains s.cursor.currentTag = false := hs.brace ▸ h

/-- It stays stuck where it is. -/
theorem stay (hs : w.Stuck ctx ctx' s) (htokens : t.cursor.tokens = s.cursor.tokens)
    (hposition : t.cursor.position = s.cursor.position) : w.Stuck ctx ctx' t :=
  ⟨hs.differ, hposition ▸ hs.lt, (currentTag_of_place htokens hposition).trans hs.brace⟩

/-- No line break is there. -/
theorem skipFrom_eq (hs : w.Stuck ctx ctx' s) :
    Cursor.skipFrom s.cursor.tokens (· == .newline) s.cursor.position = s.cursor.position := by
  unfold Cursor.skipFrom
  refine if_neg fun h => ?_
  have hbreak : s.cursor.currentTag = .newline := eq_of_beq h.2
  rw [hs.brace] at hbreak
  cases hbreak

end Stuck

/-- Two steps that meet from any paired states, where the left run may get stuck. -/
abbrev Veers (w : Fork) (ctx ctx' : Context) [Steers α] (p q : Parse α) : Prop :=
  Ends w (.straying (w.Stuck ctx ctx')) p q

/-- In one context no run gets stuck. -/
theorem Meets.sides {stops : Stops} {X : α → β → State → State → Prop} {r : EStateM.Result Failure State α}
    {r' : EStateM.Result Failure State β}
    (h : w.Meets (.straying (w.Stuck ctx ctx)) X r r') : w.Meets stops X r r' := by
  obtain h | ⟨_, _, -, stuck⟩ := h.cases_straying
  · exact h.of_none
  · exact absurd rfl stuck.differ

theorem Ends.sides {stops : Stops} [Steers α] {p q : Parse α} (h : Veers w ctx ctx p q) : Ends w stops p q :=
  ⟨fun s t paired => (h.meets s t paired).sides⟩

/-! ## A stuck run -/

/-- A step with which a stuck run stays stuck, or is over. -/
class Sticks (w : Fork) (ctx ctx' : Context) {α : Type} (p : Parse α) : Prop where
  forward : Forward p
  sticks : ∀ s, w.Stuck ctx ctx' s → w.Wanders (w.Stuck ctx ctx') (p s)

/-- A question to which a stuck run has no for an answer. -/
class Denies (w : Fork) (ctx ctx' : Context) (test : Parse Bool) : Prop where
  denies : ∀ s, w.Stuck ctx ctx' s → ∃ t, test s = .ok false t ∧ w.Stuck ctx ctx' t

namespace Sticks

variable {set : TagSet} {p q : Parse α}

instance : Sequential (@Sticks w ctx ctx') where
  pure a := ⟨inferInstance, fun s stuck => .inr ⟨a, s, rfl, stuck⟩⟩
  bind {α β p f} hp hf := by
    have := hp.forward
    have := fun a => (hf a).forward
    exact ⟨inferInstance, fun s stuck => (hp.sticks s stuck).bind fun a s' => (hf a).sticks s'⟩
  exhausted := ⟨inferInstance, fun _ _ => .inl trivial⟩
  within {α p} what hp := by
    have := hp.forward
    refine ⟨inferInstance, fun s stuck => ?_⟩
    obtain hquits | ⟨a, t, hs, stuck⟩ := hp.sticks s stuck
    · exact .inl (hquits.within what)
    · exact .inr ⟨a, t, by rw [Parse.within, hs], stuck⟩
  bounded {α p} h := by
    have := fun n => (h n).forward
    exact ⟨inferInstance, fun s stuck => (h s.bound).sticks s stuck⟩

instance [h : Has (@Sticks w ctx ctx') p] : Sticks w ctx ctx' p := h.has

instance (priority := low) [h : Sticks w ctx ctx' p] : Has (@Sticks w ctx ctx') p := ⟨h⟩

instance [hp : Still p] [hforward : Forward p] : Sticks w ctx ctx' p := by
  refine ⟨hforward, fun s stuck => ?_⟩
  obtain ⟨a, t, hs, htokens, hposition⟩ := hp.stays s
  exact .inr ⟨a, t, hs, stuck.stay htokens hposition⟩

instance : TagSet.Beside [.lbrace] .argStart := ⟨by decide⟩
instance : TagSet.Beside [.lbrace] (.single .kwIs) := ⟨by decide⟩
instance : TagSet.Beside [.lbrace] (.single .comma) := ⟨by decide⟩
instance : TagSet.Beside [.lbrace] (.single .arrow) := ⟨by decide⟩

instance {test : Parse Bool} [ht : Finds set test] [hset : TagSet.Beside [.lbrace] set] : Denies w ctx ctx' test := by
  refine ⟨fun s stuck => ?_⟩
  obtain ⟨c, t, hs, htokens, hposition⟩ := ht.stays s
  cases c with
  | true =>
    have hmem := Finds.yes hs
    rw [stuck.contains (hset.lacks .lbrace (by decide))] at hmem
    cases hmem
  | false => exact ⟨t, hs, stuck.stay htokens hposition⟩

instance (tag : Tag) [TagSet.Beside [.lbrace] (.single tag)] : Denies w ctx ctx' (accept tag) := by
  refine ⟨fun s stuck => ?_⟩
  obtain ⟨t, hs, stuck⟩ := (inferInstance : Denies w ctx ctx' (check tag)).denies s stuck
  exact ⟨t, bind_of_ok hs, stuck⟩

instance {test : Parse Bool} [ht : Denies w ctx ctx' test] [Forward test] [Forward p] [hq : Sticks w ctx ctx' q] :
    Sticks w ctx ctx' (test >>= fun c => if c = true then p else q) := by
  have := hq.forward
  refine ⟨inferInstance, fun s stuck => ?_⟩
  obtain ⟨t, hs, stuck⟩ := ht.denies s stuck
  rw [bind_of_ok hs]
  exact hq.sticks t stuck

instance {test : Parse Bool} [Denies w ctx ctx' test] [Forward test] [Forward p] :
    Sticks w ctx ctx' (optionally test p) := by
  unfold optionally; infer_instance

instance (kind : ExprKind) (span : Span) : Sticks w ctx ctx' (newExpr kind span) :=
  ⟨inferInstance, fun _ stuck => .inr ⟨_, _, rfl, stuck.stay rfl rfl⟩⟩

instance (id : ExprId) : Sticks w ctx ctx' (exprSpan id) := ⟨inferInstance, fun s stuck => .inr ⟨_, s, rfl, stuck⟩⟩
instance (id : ExprId) : Sticks w ctx ctx' (isClosedForm id) := ⟨inferInstance, fun s stuck => .inr ⟨_, s, rfl, stuck⟩⟩
instance : Sticks w ctx ctx' previousSpan := ⟨inferInstance, fun s stuck => .inr ⟨_, s, rfl, stuck⟩⟩

instance (start : Span) : Sticks w ctx ctx' (spanFrom start) := by unfold spanFrom; infer_instance

instance : Sticks w ctx ctx' skipNewlines :=
  ⟨inferInstance, fun _ stuck => .inr ⟨_, _, rfl, stuck.stay rfl stuck.skipFrom_eq⟩⟩

end Sticks

/-- No item comes behind one in which the left run has got stuck. -/
theorem Stuck.separator (stuck : w.Stuck ctx ctx' s) :
    w.Quits (commaSeparator s) ∨ ∃ t, commaSeparator s = .ok false t ∧ w.Stuck ctx ctx' t := by
  unfold commaSeparator
  obtain hquits | ⟨_, t, hs, stuck⟩ := (inferInstance : Sticks w ctx ctx' skipNewlines).sticks s stuck
  · exact .inl hquits.bind
  · obtain ⟨u, ht, stuck⟩ := (inferInstance : Denies w ctx ctx' (accept .comma)).denies t stuck
    rw [bind_of_ok hs, bind_of_ok ht]
    exact .inr ⟨u, rfl, stuck⟩

/-- What closes the list is missing. -/
theorem Stuck.closing (stuck : w.Stuck ctx ctx' s) {close : Tag} (hclose : close.isClosing = true) (opening : Span) :
    w.Quits (expectClosing close opening s) := by
  obtain ⟨htag, -⟩ | ⟨-, e, herror, -⟩ := expectClosing_cases close opening s
  · rw [← htag, stuck.brace] at hclose
    cases hclose
  · rw [herror]
    exact fun heq => absurd heq (Nat.ne_of_lt stuck.lt)

/-! ## Steps that get stuck -/

namespace Veers

variable [Steers α] [Steers β] {p q : Parse α} {f g : α → Parse β}

theorem bind [h : Veers w ctx ctx' p q] [∀ a, Forward (f a)] [∀ b, Forward (g b)] [hf : ∀ a, Sticks w ctx ctx' (f a)]
    (hfg : ∀ a b, Alike a b → Veers w ctx ctx' (f a) (g b)) : Veers w ctx ctx' (p >>= f) (q >>= g) :=
  ⟨fun s t paired => (h.meets s t paired).bind_astray (fun a b s' t' paired' hab => (hfg a b hab).meets s' t' paired')
    fun a s' stuck => (hf a).sticks s' stuck⟩

instance (priority := low) [Steers.Exact α] [Veers w ctx ctx' p q] [∀ a, Forward (f a)] [∀ b, Forward (g b)]
    [∀ a, Sticks w ctx ctx' (f a)] [hfg : ∀ a, Veers w ctx ctx' (f a) (g a)] : Veers w ctx ctx' (p >>= f) (q >>= g) :=
  bind fun a _ hab => hab.eq ▸ hfg a

instance {test : Parse Bool} {set : TagSet} [Tests w test set] [Enters set p] [Enters set q] [Forward p] [Forward q]
    [Veers w ctx ctx' p q] : Veers w ctx ctx' (optionally test p) (optionally test q) := by
  have : Veers w ctx ctx' (p >>= fun a => pure (some a)) (q >>= fun a => pure (some a)) :=
    bind fun _ _ _ => inferInstance
  unfold optionally
  infer_instance

/-- Two loops, the left one of which may get stuck in a turn. -/
theorem repeating {body body' : α → Parse (ForInStep α)} [∀ a, Forward (body a)] [∀ b, Forward (body' b)]
    [hsticks : ∀ a, Sticks w ctx ctx' (body a)] (hbody : ∀ a b, Alike a b → Veers w ctx ctx' (body a) (body' b))
    {a b : α} (h : Alike a b) : Veers w ctx ctx' (repeating body a) (repeating body' b) := by
  refine ⟨fun s t paired => turns_meet (Y := SameWay) (fun a b s t paired hab => ?_) _ _ _ _ _ _ paired h⟩
  obtain hmeets | ⟨x, s', hs, stuck⟩ := ((hbody a b hab).meets s t paired).cases_straying
  · refine .inl (hmeets.mono fun x y s t _ _ _ hxy => ?_)
    obtain ⟨hxy⟩ := hxy
    cases x <;> cases y <;> first | exact ⟨hxy⟩ | exact hxy
  · refine .inr (.inr fun n => ?_)
    rw [show turns body (n + 1) a s = _ from bind_of_ok hs]
    cases x with
    | done c => exact .inr ⟨c, s', rfl, stuck⟩
    | yield c => exact (inferInstance : Sticks w ctx ctx' (turns body n c)).sticks s' stuck

instance [Steers.Exact α] {body body' : α → Parse (ForInStep α)} [∀ a, Forward (body a)] [∀ b, Forward (body' b)]
    [∀ a, Sticks w ctx ctx' (body a)] [h : ∀ a, Veers w ctx ctx' (body a) (body' a)] (a : α) :
    Veers w ctx ctx' (Parse.repeating body a) (Parse.repeating body' a) :=
  repeating (fun a _ hab => hab.eq ▸ h a) ⟨Steers.Exact.refl a⟩

instance {item item' : Parse (Option α)} [Forward item] [Forward item'] [Sticks w ctx ctx' item]
    [Veers w ctx ctx' item item'] : Veers w ctx ctx' (many item) (many item') := by
  have turn (as bs : List α) (has : Alike as bs) : Veers w ctx ctx' (manyTurn item as) (manyTurn item' bs) := by
    have := Has.afterItem @Forward as
    have := Has.afterItem @Forward bs
    have := Has.afterItem (@Sticks w ctx ctx') as
    refine bind fun a b hab => ?_
    obtain ⟨hab⟩ := hab
    cases hab with
    | none => infer_instance
    | some hab =>
      have := Alike.mk hab
      infer_instance
  have : Veers w ctx ctx' (Parse.repeating (manyTurn item) []) (Parse.repeating (manyTurn item') []) :=
    repeating turn ⟨.nil⟩
  exact bind fun as bs _ => inferInstance

/-- Items in brackets, in which the left run may get stuck: none of the runs ends alone. -/
theorem bracketed {item item' : Parse α} [Forward item] [Forward item'] {stops : Stops} {close : Tag} [Closing close]
    [(TagSet.single close).Inner] (h : Veers w ctx ctx' item item') :
    Ends w stops (bracketed close item) (bracketed close item') :=
  bracketed_meets h.meets (fun _ => Stuck.separator) fun _ opening stuck => stuck.closing Closing.isClosing opening

end Veers

end Fork

end SolSyntax
