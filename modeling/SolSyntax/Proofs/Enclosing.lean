import SolSyntax.Proofs.Edges
import SolSyntax.Proofs.Ends
import SolSyntax.Proofs.Entering

/-!
# The end of a list and the end of a block

What can be read up to the end of a token list can be read up to the brace that closes a block, if its
brackets are closed: the grammar asks for a closing brace only where it has opened one, and a scan for a
closing bracket comes to its end before.  So the same nodes are stored in both cases.

Principal results: `Carries` — a step that succeeds before the end does the same before the brace, with
instances for everything productions are built with; `Rules.carries_rules` — the readers of expressions,
types and blocks; `Carries.stmt` — of statements; `Carries.reads_enclosed` — what is read up to an end is
read up to a brace.
-/

namespace SolSyntax

/-- What is asked for somewhere within an expression, other than by what ends a group. -/
class TagSet.Within (set : TagSet) : Prop where
  eof : set.contains .eof = false
  rbrace : set.contains .rbrace = false

namespace TagSet.Within

instance : TagSet.Within .identStart := ⟨rfl, rfl⟩
instance : TagSet.Within .patternStart := ⟨rfl, rfl⟩
instance : TagSet.Within .argStart := ⟨rfl, rfl⟩
instance : TagSet.Within .exprStart := ⟨rfl, rfl⟩

theorem single {tag : Tag} (h : tag ≠ .eof ∧ tag ≠ .rbrace) : TagSet.Within (.single tag) :=
  ⟨by simp [h.1], by simp [h.2]⟩

instance : TagSet.Within (.single .newline) := single (by decide)
instance : TagSet.Within (.single .comma) := single (by decide)
instance : TagSet.Within (.single .colon) := single (by decide)
instance : TagSet.Within (.single .eq) := single (by decide)
instance : TagSet.Within (.single .arrow) := single (by decide)
instance : TagSet.Within (.single .fatArrow) := single (by decide)
instance : TagSet.Within (.single .pipe) := single (by decide)
instance : TagSet.Within (.single .quote) := single (by decide)
instance : TagSet.Within (.single .lbrace) := single (by decide)
instance : TagSet.Within (.single .kwIf) := single (by decide)
instance : TagSet.Within (.single .kwThen) := single (by decide)
instance : TagSet.Within (.single .kwIs) := single (by decide)
instance : TagSet.Within (.single .kwLet) := single (by decide)

end TagSet.Within

/-- Brackets that are closed in the end are closed from anywhere on. -/
theorem Closes.drop {u v : List Token} {d : Nat} (h : Closes d (u ++ v)) : ∃ d', Closes d' v := by
  induction u generalizing d with
  | nil => exact ⟨d, h⟩
  | cons t u ih => exact ih h.2.2

/-- Tokens are taken from the common ones only, if the next one is none to be taken. -/
theorem takeWhile_append_cons {p : Token → Bool} {t : Token} (h : p t = false) (v r : List Token) :
    (v ++ t :: r).takeWhile p = v.takeWhile p := by
  induction v with
  | nil => exact List.takeWhile_cons_of_neg (by simp [h])
  | cons x v ih => rw [List.cons_append, List.takeWhile_cons, List.takeWhile_cons, ih]

namespace Grammar

open Parse

/-- What comes after the tokens that two lists have in common: on the left the end, on the right a brace
that closes a block and is as close to those tokens. -/
structure Enclosure where
  stop : Token
  left : List Token
  brace : Token
  right : List Token
  ended : stop.tag = .eof
  closing : brace.tag = .rbrace
  span : brace.span = stop.span

namespace Enclosure

variable {w : Enclosure} {v : List Token} {s t s' t' : State}

/-- Both runs stand before the common tokens `v`, and have stored the same. -/
structure Facing (w : Enclosure) (v : List Token) (s t : State) : Prop where
  left : s.cursor.rest = v ++ w.stop :: w.left
  right : t.cursor.rest = v ++ w.brace :: w.right
  closes : ∃ d, Closes d v
  previous : t.cursor.previousSpan = s.cursor.previousSpan
  size : t.cursor.tokens.size = s.cursor.tokens.size
  arena : t.arena = s.arena
  names : t.names = s.names

namespace Facing

/-- Both runs pass the same tokens. -/
theorem step {u : List Token} (h : Facing w (u ++ v) s t) (hs : Moved u.length s s') (ht : Moved u.length t t') :
    Facing w v s' t' where
  left := by
    rw [hs.rest, h.left, List.append_assoc, List.drop_left]
  right := by
    rw [ht.rest, h.right, List.append_assoc, List.drop_left]
  closes := h.closes.elim fun _ hd => hd.drop
  previous := by
    by_cases hu : u = []
    · subst hu
      rw [Cursor.previousSpan_congr hs.tokens hs.position, Cursor.previousSpan_congr ht.tokens ht.position,
        h.previous]
    · rw [Cursor.previousSpan_of_position hs.tokens hs.position (by rw [h.left, List.append_assoc]) hu,
        Cursor.previousSpan_of_position ht.tokens ht.position (by rw [h.right, List.append_assoc]) hu]
  size := by rw [hs.tokens, ht.tokens, h.size]
  arena := by rw [hs.arena, ht.arena, h.arena]
  names := by rw [hs.names, ht.names, h.names]

/-- Both runs look around and stay. -/
theorem stay (h : Facing w v s t) (hs : Moved 0 s s') (ht : Moved 0 t t') : Facing w v s' t' :=
  h.step (u := []) hs ht

/-- Both runs store the same, and stay where they are. -/
theorem stored (h : Facing w v s t) (a : Arena) (names : Interner) :
    Facing w v { s with arena := a, names } { t with arena := a, names } :=
  ⟨h.left, h.right, h.closes, h.previous, h.size, rfl, rfl⟩

theorem cases_headTag (h : Facing w v s t) :
    (v ≠ [] ∧ headTag s.cursor.rest = headTag v ∧ headTag t.cursor.rest = headTag v) ∨
      v = [] ∧ headTag s.cursor.rest = .eof ∧ headTag t.cursor.rest = .rbrace := by
  rw [h.left, h.right]
  cases v with
  | nil => exact .inr ⟨rfl, w.ended, w.closing⟩
  | cons tok v => exact .inl ⟨List.cons_ne_nil _ _, rfl, rfl⟩

theorem headTag_eq (h : Facing w v s t) (hv : v ≠ []) : headTag t.cursor.rest = headTag s.cursor.rest := by
  obtain ⟨-, hs, ht⟩ | ⟨rfl, -⟩ := h.cases_headTag
  · rw [hs, ht]
  · exact absurd rfl hv

theorem contains_eq (h : Facing w v s t) (set : TagSet) [hset : TagSet.Within set] :
    set.contains (headTag t.cursor.rest) = set.contains (headTag s.cursor.rest) ∧
      (set.contains (headTag s.cursor.rest) = true → v ≠ []) := by
  obtain ⟨hv, hs, ht⟩ | ⟨rfl, hs, ht⟩ := h.cases_headTag
  · rw [hs, ht]
    exact ⟨rfl, fun _ => hv⟩
  · rw [hs, ht, hset.eof, hset.rbrace]
    exact ⟨rfl, nofun⟩

theorem isAt_eq (h : Facing w v s t) (tag : Tag) [hset : TagSet.Within (.single tag)] :
    t.cursor.isAt tag = s.cursor.isAt tag ∧ (s.cursor.isAt tag = true → v ≠ []) := by
  have := h.contains_eq (.single tag)
  simp only [TagSet.contains_single, Bool.beq_comm (a := tag)] at this
  rwa [Cursor.isAt_eq, Cursor.isAt_eq]

theorem isAtEnd (h : Facing w [] s t) : s.cursor.isAtEnd = true := by
  rw [isAtEnd_eq, h.left, List.nil_append, headTag_cons, w.ended]
  rfl

theorem current_eq (h : Facing w v s t) (hv : v ≠ []) : t.cursor.current = s.cursor.current := by
  rw [Cursor.current_eq, Cursor.current_eq, h.left, h.right]
  cases v with
  | nil => exact absurd rfl hv
  | cons tok v => rfl

theorem nextSpan_eq (h : Facing w v s t) (hv : v ≠ []) : t.cursor.nextSpan = s.cursor.nextSpan := by
  rw [Cursor.nextSpan_eq, Cursor.nextSpan_eq, h.left, h.right]
  match v, hv with
  | [_], _ => exact w.span
  | _ :: _ :: _, _ => rfl

theorem isTightDot_eq (h : Facing w v s t) (hv : v ≠ []) : isTightDot t.cursor = isTightDot s.cursor := by
  rw [isTightDot, isTightDot, h.previous, h.current_eq hv, h.nextSpan_eq hv]

end Facing

end Enclosure

open Enclosure

/-! ## Steps that carry over -/

/-- A step that does before the brace what it does before the end, if it succeeds there. -/
class Carries (w : Enclosure) (p : Parse α) : Prop where
  carries : ∀ {v s t a s'}, Facing w v s t → p s = .ok a s' → ∃ v' t', p t = .ok a t' ∧ Facing w v' s' t'

/-- So does a step that begins with a common token. -/
class Begins (w : Enclosure) (p : Parse α) : Prop where
  begins : ∀ {v s t a s'}, Facing w v s t → v ≠ [] → p s = .ok a s' →
    ∃ v' t', p t = .ok a t' ∧ Facing w v' s' t'

/-- A step that looks at a common token and leaves it. -/
class Looks (w : Enclosure) (p : Parse α) : Prop where
  looks : ∀ {v s t}, Facing w v s t → v ≠ [] → ∃ a s' t', p s = .ok a s' ∧ p t = .ok a t' ∧ Facing w v s' t'

/-- A question with the same answer before the brace and before the end, which is yes for a common token
only. -/
class Asks (w : Enclosure) (test : Parse Bool) : Prop where
  asks : ∀ {v s t}, Facing w v s t →
    ∃ c s' t', test s = .ok c s' ∧ test t = .ok c t' ∧ Facing w v s' t' ∧ (c = true → v ≠ [])

section Combinators

variable {w : Enclosure} {p q : Parse α} {f : α → Parse β}

instance (priority := low) [h : Carries w p] : Begins w p := ⟨fun facing _ => h.carries facing⟩

/-- Before the end there is only a failure. -/
theorem Carries.of_dead [hd : Dead p] [hb : Begins w p] : Carries w p := by
  refine ⟨fun {v s t a s'} facing h => ?_⟩
  by_cases hv : v = []
  · subst hv
    obtain ⟨e, s₁, he⟩ := hd.fails s facing.isAtEnd
    rw [he] at h
    cases h
  · exact hb.begins facing hv h

instance (priority := low) [Dead p] [Begins w p] : Carries w p := .of_dead

instance (priority := low) {test : Parse Bool} [h : Asks w test] : Carries w test := by
  refine ⟨fun facing hs => ?_⟩
  obtain ⟨c, s₁, t₁, hs₁, ht₁, facing₁, -⟩ := h.asks facing
  rw [hs₁] at hs
  cases hs
  exact ⟨_, t₁, ht₁, facing₁⟩

/-- What was being read is told to failures only. -/
theorem within_of_ok {what : Construct} {s s' : State} {a : α} (h : p s = .ok a s') : within what p s = .ok a s' := by
  unfold within
  rw [h]

instance : Sequential fun _ => Carries w where
  pure a := ⟨fun facing h => by cases h; exact ⟨_, _, rfl, facing⟩⟩
  bind hp hf := by
    refine ⟨fun facing h => ?_⟩
    obtain ⟨a, s₁, h₁, h₂⟩ := exists_of_bind_ok h
    obtain ⟨v₁, t₁, ht₁, facing₁⟩ := hp.carries facing h₁
    obtain ⟨v₂, t₂, ht₂, facing₂⟩ := (hf a).carries facing₁ h₂
    exact ⟨v₂, t₂, (bind_of_ok ht₁).trans ht₂, facing₂⟩
  exhausted := ⟨nofun⟩
  within what h := by
    refine ⟨fun facing hs => ?_⟩
    obtain ⟨v', t', ht, facing'⟩ := h.carries facing (within_ok hs)
    exact ⟨v', t', within_of_ok ht, facing'⟩
  bounded h := by
    refine ⟨fun {v s t a s'} facing hs => ?_⟩
    have hbound : t.bound = s.bound := congrArg (· + 1) facing.size
    unfold bounded
    rw [hbound]
    exact (h s.bound).carries facing hs

instance [h : Has (fun _ => Carries w) p] : Carries w p := h.has

instance (priority := low) [h : Carries w p] : Has (fun _ => Carries w) p := ⟨h⟩

instance [hp : Begins w p] [hf : ∀ a, Carries w (f a)] : Begins w (p >>= f) := by
  refine ⟨fun facing hv h => ?_⟩
  obtain ⟨a, s₁, h₁, h₂⟩ := exists_of_bind_ok h
  obtain ⟨v₁, t₁, ht₁, facing₁⟩ := hp.begins facing hv h₁
  obtain ⟨v₂, t₂, ht₂, facing₂⟩ := (hf a).carries facing₁ h₂
  exact ⟨v₂, t₂, (bind_of_ok ht₁).trans ht₂, facing₂⟩

instance [hp : Looks w p] [hf : ∀ a, Begins w (f a)] : Begins w (p >>= f) := by
  refine ⟨fun facing hv h => ?_⟩
  obtain ⟨a, s₁, t₁, hs₁, ht₁, facing₁⟩ := hp.looks facing hv
  rw [bind_of_ok hs₁] at h
  rw [bind_of_ok ht₁]
  exact (hf a).begins facing₁ hv h

/-- What is done if the answer is yes begins with a common token. -/
instance {test : Parse Bool} [h : Asks w test] [hp : Begins w p] [hq : Carries w q] :
    Carries w (test >>= fun c => if c = true then p else q) := by
  refine ⟨fun facing hs => ?_⟩
  obtain ⟨c, s₁, t₁, hs₁, ht₁, facing₁, hv⟩ := h.asks facing
  rw [bind_of_ok hs₁] at hs
  rw [bind_of_ok ht₁]
  cases c with
  | true => exact hp.begins facing₁ (hv rfl) hs
  | false => exact hq.carries facing₁ hs

instance [Begins w p] [Begins w q] {c : Prop} [Decidable c] : Begins w (if c then p else q) := by
  split <;> infer_instance

instance (c : Complaint) : Carries w (fail c : Parse α) := ⟨nofun⟩
instance (set : TagSet) (c : Complaint) : Carries w (failWanting set c : Parse α) := ⟨nofun⟩

instance [h : Begins w p] (what : Construct) : Begins w (within what p) := by
  refine ⟨fun facing hv hs => ?_⟩
  obtain ⟨v', t', ht, facing'⟩ := h.begins facing hv (within_ok hs)
  exact ⟨v', t', within_of_ok ht, facing'⟩

end Combinators

/-! ## Elementary steps -/

section Steps

variable {w : Enclosure}

theorem Asks.look {q : Cursor → Bool}
    (h : ∀ {v s t}, Facing w v s t → q t.cursor = q s.cursor ∧ (q s.cursor = true → v ≠ [])) :
    Asks w (look q) := by
  refine ⟨fun {v s t} facing => ⟨q s.cursor, s, t, rfl, ?_, facing, (h facing).2⟩⟩
  rw [Parse.look, (h facing).1]

theorem Looks.look {f : Cursor → α} (h : ∀ {v s t}, Facing w v s t → v ≠ [] → f t.cursor = f s.cursor) :
    Looks w (look f) := by
  refine ⟨fun {v s t} facing hv => ⟨f s.cursor, s, t, rfl, ?_, facing⟩⟩
  rw [Parse.look, h facing hv]

instance : Looks w current := .look fun facing hv => facing.current_eq hv
instance : Looks w (look Cursor.currentTag) :=
  .look fun facing hv => by rw [Cursor.currentTag_eq, Cursor.currentTag_eq, facing.headTag_eq hv]
instance : Looks w (look isTightDot) := .look fun facing hv => facing.isTightDot_eq hv

instance : Carries w previousSpan := by
  refine ⟨fun facing h => ?_⟩
  cases h
  refine ⟨_, _, ?_, facing⟩
  rw [previousSpan, look, facing.previous]

instance (start : Span) : Carries w (spanFrom start) := by unfold spanFrom; infer_instance

instance (set : TagSet) : Carries w (note set) := by
  refine ⟨fun facing h => ?_⟩
  cases h
  exact ⟨_, _, rfl, facing.stay ⟨rfl, rfl, rfl, rfl⟩ ⟨rfl, rfl, rfl, rfl⟩⟩

instance (set : TagSet) [TagSet.Within set] : Asks w (checkSet set) := by
  refine ⟨fun {v s t} facing => ?_⟩
  obtain ⟨s', hs, ms⟩ := checkSet_eq set s
  obtain ⟨t', ht, mt⟩ := checkSet_eq set t
  obtain ⟨heq, hv⟩ := facing.contains_eq set
  rw [heq] at ht
  exact ⟨_, s', t', hs, ht, facing.stay ms mt, hv⟩

instance (tag : Tag) [TagSet.Within (.single tag)] : Asks w (check tag) := by
  rw [check_eq_checkSet]; infer_instance

instance (tag : Tag) : Looks w (check tag) := by
  refine ⟨fun {v s t} facing hv => ?_⟩
  obtain ⟨s', hs, ms⟩ := check_eq tag s
  obtain ⟨t', ht, mt⟩ := check_eq tag t
  rw [facing.headTag_eq hv] at ht
  exact ⟨_, s', t', hs, ht, facing.stay ms mt⟩

instance (tag : Tag) [TagSet.Within (.single tag)] : Asks w (isAt tag) := .look fun facing => facing.isAt_eq tag

instance : Begins w advance := by
  refine ⟨fun {v s t a s'} facing hv h => ?_⟩
  obtain ⟨tok, v, rfl⟩ := List.exists_cons_of_ne_nil hv
  obtain ⟨d, hne, -⟩ := facing.closes
  obtain ⟨s₁, hs, ms⟩ := advance_eq facing.left hne
  obtain ⟨t₁, ht, mt⟩ := advance_eq facing.right hne
  rw [hs] at h
  cases h
  exact ⟨v, t₁, ht, facing.step (u := [_]) ms mt⟩

instance (tag : Tag) [TagSet.Within (.single tag)] : Carries w (accept tag) := by unfold accept; infer_instance

instance (tag : Tag) [TagSet.Within (.single tag)] : Carries w (expect tag) := by
  rw [expect_eq_check]; infer_instance

instance (token : Token) : Begins w (identOf token) := by
  unfold identOf
  split <;> infer_instance

instance : Carries w expectIdent := by
  have : Begins w expectIdent := by rw [expectIdent_eq_identOf]; infer_instance
  infer_instance

/-- A complaint is no success. -/
instance {p : Parse γ} (g : γ → SyntaxError) : Carries w (p >>= fun c => (raise (g c) : Parse α)) := by
  refine ⟨fun facing h => ?_⟩
  obtain ⟨_, _, -, h⟩ := exists_of_bind_ok h
  cases h

instance (close : Tag) (opening : Span) : Begins w (expectClosing close opening) := by
  unfold expectClosing; infer_instance

theorem Carries.expectClosing {close : Tag} (h : Tag.isInner close) (opening : Span) :
    Carries w (expectClosing close opening) :=
  have := Dead.expectClosing h opening
  .of_dead

/-- A step that passes tokens of a kind that is neither the end's nor the brace's. -/
theorem Carries.of_takeWhile {p : Parse α} {q : Token → Bool} {f : List Token → α}
    (hp : ∀ s, ∃ s', p s = .ok (f (s.cursor.rest.takeWhile q)) s' ∧
      Moved (s.cursor.rest.takeWhile q).length s s')
    (hstop : q w.stop = false) (hbrace : q w.brace = false) : Carries w p := by
  refine ⟨fun {v s t a s'} facing h => ?_⟩
  obtain ⟨s₁, hs, ms⟩ := hp s
  obtain ⟨t₁, ht, mt⟩ := hp t
  rw [hs] at h
  cases h
  rw [facing.left, takeWhile_append_cons hstop] at ms ⊢
  rw [facing.right, takeWhile_append_cons hbrace] at ht mt
  rw [← List.takeWhile_append_dropWhile (p := q) (l := v)] at facing
  exact ⟨_, t₁, ht, facing.step ms mt⟩

instance : Carries w skipNewlines :=
  .of_takeWhile (q := fun t => t.tag == .newline) (f := fun _ => ()) skipNewlines_eq (by simp [w.ended])
    (by simp [w.closing])
instance : Carries w eatSeparators :=
  .of_takeWhile (q := fun t => t.tag == .comma || t.tag == .newline) (f := fun u => !u.isEmpty)
    (fun s => eatSeparators_eq s rfl) (by simp [w.ended]) (by simp [w.closing])

/-- A step that is about what has been stored alone. -/
theorem Carries.of_stored {p : Parse α} (h : ∀ {c a n r s'}, p ⟨c, a, n⟩ = .ok r s' →
    s'.cursor = c ∧ ∀ d, p ⟨d, a, n⟩ = .ok r ⟨d, s'.arena, s'.names⟩) : Carries w p := by
  refine ⟨fun {v s t r s'} facing hs => ?_⟩
  obtain ⟨c, a, n⟩ := s
  obtain ⟨d, a', n'⟩ := t
  obtain rfl : a' = a := facing.arena
  obtain rfl : n' = n := facing.names
  obtain ⟨hc, hd⟩ := h hs
  obtain ⟨_, a, n⟩ := s'
  obtain rfl : _ = c := hc
  exact ⟨v, _, hd d, facing.stored a n⟩

instance (kind : ExprKind) (span : Span) : Carries w (newExpr kind span) :=
  .of_stored fun h => by cases h; exact ⟨rfl, fun _ => rfl⟩
instance (kind : PatternKind) (span : Span) : Carries w (newPattern kind span) :=
  .of_stored fun h => by cases h; exact ⟨rfl, fun _ => rfl⟩
instance (id : ExprId) : Carries w (exprSpan id) := .of_stored fun h => by cases h; exact ⟨rfl, fun _ => rfl⟩
instance (id : PatternId) : Carries w (patternSpan id) :=
  .of_stored fun h => by cases h; exact ⟨rfl, fun _ => rfl⟩
instance (text : String) : Carries w (intern text) := .of_stored fun h => by cases h; exact ⟨rfl, fun _ => rfl⟩
instance (id : ExprId) : Carries w (isClosedForm id) := .of_stored fun h => by cases h; exact ⟨rfl, fun _ => rfl⟩
instance (id : ExprId) : Carries w (isOpenIf id) := .of_stored fun h => by cases h; exact ⟨rfl, fun _ => rfl⟩

instance (id : ExprId) : Carries w (toType id) := by
  refine .of_stored fun {c a n r s'} h => ?_
  unfold toType at h ⊢
  cases hr : a.toType id with
  | mk result a' =>
    cases result with
    | error e =>
      simp only [hr] at h
      cases h
    | ok u =>
      simp only [hr] at h ⊢
      cases h
      exact ⟨rfl, fun _ => rfl⟩

end Steps

/-! ## Looking further -/

section Lookahead

variable {w : Enclosure}

/-- What comes behind a group is the same, or neither is what the grammar asks for. -/
theorem Enclosure.headTag_beq (w : Enclosure) (v : List Token) (tag : Tag) [h : TagSet.Within (.single tag)] :
    (headTag (v ++ w.brace :: w.right) == tag) = (headTag (v ++ w.stop :: w.left) == tag) := by
  cases v with
  | cons tok v => rfl
  | nil =>
    have heof := h.eof
    have hrbrace := h.rbrace
    rw [TagSet.contains_single, Bool.beq_comm] at heof hrbrace
    rw [List.nil_append, List.nil_append, headTag_cons, headTag_cons, w.ended, w.closing, heof, hrbrace]

/-- A question about what begins with a common token. -/
theorem Asks.guarded {tag : Tag} [TagSet.Within (.single tag)] {q : Cursor → Bool}
    (h : ∀ {tok v s t}, Facing w (tok :: v) s t → tok.tag = tag → q t.cursor = q s.cursor) :
    Asks w (Parse.look fun c => c.isAt tag && q c) := by
  refine .look fun {v s t} facing => ?_
  obtain ⟨heq, hv⟩ := facing.isAt_eq tag
  rw [heq]
  cases hat : s.cursor.isAt tag with
  | false => exact ⟨rfl, nofun⟩
  | true =>
    obtain ⟨tok, v, rfl⟩ := List.exists_cons_of_ne_nil (hv hat)
    rw [Cursor.isAt_eq, facing.left] at hat
    exact ⟨congrArg _ (h facing (eq_of_beq hat)), fun _ => List.cons_ne_nil _ _⟩

/-- The one question or the other. -/
theorem Asks.either {q q' : Cursor → Bool} (h : Asks w (Parse.look q)) (h' : Asks w (Parse.look q')) :
    Asks w (Parse.look fun c => q c || q' c) := by
  refine .look fun {v s t} facing => ?_
  obtain ⟨_, _, _, hs, ht, -, hv⟩ := h.asks facing
  obtain ⟨_, _, _, hs', ht', -, hv'⟩ := h'.asks facing
  cases hs
  cases hs'
  rw [(EStateM.Result.ok.inj ht).1, (EStateM.Result.ok.inj ht').1, Bool.or_eq_true]
  exact ⟨rfl, fun h => h.elim hv hv'⟩

/-- The group that begins here ends before the common tokens do. -/
theorem Enclosure.Facing.groupSplit {tok : Token} {v : List Token} {s t : State} (h : Facing w (tok :: v) s t)
    (ho : tok.tag.isOpening = true) : ∃ u x, groupSplit s.cursor.rest 0 = some (u, x ++ w.stop :: w.left) ∧
      groupSplit t.cursor.rest 0 = some (u, x ++ w.brace :: w.right) := by
  obtain ⟨d, hd⟩ := h.closes
  obtain ⟨u, x, hsplit⟩ := groupSplit_of_isOpening hd ho
  exact ⟨tok :: u, x, by rw [h.left, hsplit], by rw [h.right, hsplit]⟩

theorem Asks.groupFollowedBy {tag follow : Tag} [TagSet.Within (.single tag)] [TagSet.Within (.single follow)]
    (ho : tag.isOpening = true) : Asks w (Parse.look fun c => c.isAt tag && c.groupFollowedBy follow) := by
  refine .guarded fun facing htag => ?_
  obtain ⟨u, x, hs, ht⟩ := facing.groupSplit (by rw [htag, ho])
  rw [Cursor.groupFollowedBy_eq, Cursor.groupFollowedBy_eq, groupThen, groupThen, hs, ht]
  exact w.headTag_beq x follow

instance : TagSet.Within (.single .lbracket) := .single (by decide)
instance : TagSet.Within (.single .lparen) := .single (by decide)
instance : TagSet.Within (.single .dot) := .single (by decide)

instance : Asks w (look startsSigma) := .groupFollowedBy rfl

instance : Asks w (look startsParamList) := by
  refine .either (.groupFollowedBy rfl) (.guarded fun facing htag => ?_)
  obtain ⟨u, x, hs, ht⟩ := facing.groupSplit (by rw [htag]; rfl)
  rw [Cursor.isParamList_eq, Cursor.isParamList_eq, holdsParams, holdsParams, hs, ht]
  simp only [facing.left, facing.right, List.cons_append, List.drop_one, List.tail_cons]
  rw [w.headTag_beq x, w.headTag_beq _ .quote]

instance : Asks w (look isPathDot) := by
  have hparts (c : Cursor) : Grammar.isPathDot c = (c.isAt .dot &&
      (TagSet.identStart.contains (c.peekTag 1) && isTightDot c)) := by
    rw [Grammar.isPathDot, isTightDot]
    simp only [Bool.and_assoc]
  rw [show isPathDot = _ from funext hparts]
  refine .guarded fun {tok v s t} facing _ => ?_
  rw [facing.isTightDot_eq (List.cons_ne_nil _ _), Cursor.peekTag_one, Cursor.peekTag_one, facing.left, facing.right]
  cases v with
  | cons tok' v => rfl
  | nil =>
    show (TagSet.identStart.contains w.brace.tag && _) = (TagSet.identStart.contains w.stop.tag && _)
    rw [w.ended, w.closing]
    rfl

instance : Asks w (look fun c => c.tagPastNewlines == .kwElse) := by
  refine .look fun {v s t} facing => ?_
  have hstop : headTag (skipBreaks (w.stop :: w.left)) = .eof := by
    rw [skipBreaks_eq_self (by rw [headTag_cons, w.ended]; decide), headTag_cons, w.ended]
  have hbrace : headTag (skipBreaks (w.brace :: w.right)) = .rbrace := by
    rw [skipBreaks_eq_self (by rw [headTag_cons, w.closing]; decide), headTag_cons, w.closing]
  rw [Cursor.tagPastNewlines_eq, Cursor.tagPastNewlines_eq, facing.left, facing.right, skipBreaks_append_ite,
    skipBreaks_append_ite]
  cases hv : skipBreaks v with
  | nil =>
    rw [if_pos rfl, if_pos rfl, hstop, hbrace]
    exact ⟨rfl, nofun⟩
  | cons e u =>
    rw [if_neg (List.cons_ne_nil _ _), if_neg (List.cons_ne_nil _ _)]
    exact ⟨rfl, fun _ h => by rw [h] at hv; cases hv⟩

/-- Whether a parameter has a type is settled before what ends the group around it. -/
theorem annotatedIn_closed {v r : List Token} {d : Nat} (h : Closes d v)
    (hr : headTag r = .eof ∨ (headTag r).isClosing = true) : annotatedIn (v ++ r) d = annotatedIn v d := by
  induction v generalizing d with
  | nil =>
    obtain rfl : d = 0 := h
    cases r with
    | nil => rfl
    | cons t r => rcases hr with hr | hr <;> rw [headTag_cons] at hr <;> simp [annotatedIn, hr]
  | cons t v ih =>
    rw [List.cons_append, annotatedIn, annotatedIn, ih h.2.2]

instance : Asks w (look isAnnotated) := by
  refine .look fun {v s t} facing => ?_
  rw [Cursor.isAnnotated_eq, Cursor.isAnnotated_eq, facing.left, facing.right]
  obtain ⟨d, hd⟩ := facing.closes
  have hleft : annotatedIn (v ++ w.stop :: w.left) 0 = annotatedIn v 0 := by
    cases d with
    | zero => exact annotatedIn_closed hd (.inl w.ended)
    | succ d => exact annotatedIn_append (by rwa [Nat.zero_add]) (Nat.succ_pos d) _
  have hright : annotatedIn (v ++ w.brace :: w.right) 0 = annotatedIn v 0 := by
    cases d with
    | zero => exact annotatedIn_closed hd (.inr (by rw [headTag_cons, w.closing]; rfl))
    | succ d => exact annotatedIn_append (by rwa [Nat.zero_add]) (Nat.succ_pos d) _
  rw [hleft, hright]
  refine ⟨rfl, ?_⟩
  rintro h rfl
  cases h

end Lookahead

/-! ## Rows and lists -/

namespace Carries

variable {w : Enclosure} {p : Parse α}

instance {test : Parse Bool} [Asks w test] [Begins w p] : Carries w (optionally test p) := by
  unfold optionally; infer_instance

theorem sequence {close : Tag} {separator : Parse Bool} [Dead p] [Carries w p] [Carries w separator]
    (h : Tag.isInner close) : Carries w (sequence close p separator) := by
  have := NotAtEnd.check h
  have turn (found : List α × Bool) : Carries w (sequenceTurn close p separator found) := by
    unfold sequenceTurn
    infer_instance
  unfold Grammar.sequence
  infer_instance

instance : Carries w commaSeparator := by unfold commaSeparator; infer_instance
instance : Carries w breakSeparator := by unfold breakSeparator; infer_instance

theorem begins_bracketed {close : Tag} [Dead p] [Carries w p] (h : Tag.isInner close) :
    Begins w (bracketed close p) := by
  have : Carries w (Grammar.sequence close p commaSeparator) := .sequence h
  have := Carries.expectClosing (w := w) h
  unfold Grammar.bracketed
  infer_instance

instance {separator : Parse Bool} {finish : List α → Parse Unit} [Dead p] [Carries w p] [Carries w separator]
    [∀ items, Carries w (finish items)] : Carries w (braced p separator finish) := by
  have hinner : Tag.isInner .rbrace := by decide
  have : Carries w (Grammar.sequence .rbrace p separator) := .sequence hinner
  have := Carries.expectClosing (w := w) hinner
  unfold braced
  infer_instance

/-! ## Patterns -/

instance : Begins w segment := by unfold segment; infer_instance
instance : Carries w path := by unfold path; infer_instance
instance : Carries w patternPath := by unfold patternPath; infer_instance

variable {q : Parse PatternId} [Carries w q]

instance : Begins w (patternGroup q) := by
  have := Carries.expectClosing (w := w) (show Tag.isInner .rparen by decide)
  unfold patternGroup
  infer_instance

instance (token : Token) : Begins w (atomOf q token) := by
  unfold atomOf
  split
  · infer_instance
  · split <;> infer_instance

instance : Carries w (atomWith q) := by
  have : Begins w (atomWith q) := by unfold atomWith; infer_instance
  infer_instance

instance : Carries w (patternApplication q) := by unfold patternApplication; infer_instance
instance : Carries w (patternWith q) := by unfold patternWith; infer_instance

instance (n : Nat) : Carries w (patternAt n) := by
  induction n with
  | zero => unfold patternAt; infer_instance
  | succ n ih => unfold patternAt; infer_instance

instance : Carries w pattern := by unfold pattern; infer_instance
instance : Carries w atom := by unfold atom; infer_instance

end Carries

/-! ## Expressions -/

/-- Readers that carry over. -/
class Rules.Carries (w : Enclosure) (r : Rules) : Prop where
  expr : ∀ ctx, Grammar.Carries w (r.expr ctx)
  arrow : ∀ ctx, Grammar.Carries w (r.arrow ctx)
  block : Grammar.Carries w r.block

namespace Carries

variable {w : Enclosure} {r : Rules} [h : r.Carries w] [r.Dead]

instance (ctx : Context) : Carries w (r.expr ctx) := h.expr ctx
instance (ctx : Context) : Carries w (r.arrow ctx) := h.arrow ctx
instance : Carries w r.block := h.block
instance : Carries w r.value := h.expr _
instance : Carries w r.type := h.arrow _

instance : Carries w (optionalType r) := by unfold optionalType; infer_instance
instance : Begins w forAllParam := by unfold forAllParam; infer_instance
instance : Carries w (typedParam r) := by unfold typedParam; infer_instance
instance (kind : ParamSetKind) : Carries w (bareParam r kind) := by
  unfold bareParam
  split <;> infer_instance
instance (kind : ParamSetKind) : Carries w (memberParam r kind) := by unfold memberParam; infer_instance
instance (kind : ParamSetKind) : Carries w (param r kind) := by
  have : Begins w (param r kind) := by unfold param; infer_instance
  infer_instance
instance (tag : Tag) : Begins w (paramSetOf r tag) := by
  unfold paramSetOf
  split
  · infer_instance
  · rename_i kind close hshape
    have hclose := Tag.isClosing_of_closing? (closing?_of_paramSetShape? hshape)
    have hinner : Tag.isInner close := ⟨by rintro rfl; exact Bool.false_ne_true hclose, Tag.ne_eof_of_isClosing hclose⟩
    have := Carries.begins_bracketed (w := w) (p := param r kind) hinner
    infer_instance
instance : Begins w (paramSet r) := by unfold paramSet; infer_instance

variable (ctx : Context)

instance : Carries w pathExpr := by unfold pathExpr; infer_instance
instance : Begins w freeVar := by unfold freeVar; infer_instance
instance : Begins w (parenthesized r ctx) := by
  have := Carries.begins_bracketed (w := w) (p := r.expr ctx.nested) (show Tag.isInner .rparen by decide)
  unfold parenthesized
  infer_instance
instance : Begins w (array r ctx) := by
  have := Carries.begins_bracketed (w := w) (p := r.expr ctx.nested) (show Tag.isInner .rbracket by decide)
  unfold array
  infer_instance
instance : Carries w (branch r ctx) := by unfold branch; infer_instance
instance (position : IfPosition) : Carries w (elseBranch r ctx position) := by
  unfold elseBranch
  cases position <;> infer_instance
instance : Carries w (condition r) := by unfold condition; infer_instance
instance (position : IfPosition) : Begins w (conditional r ctx position) := by unfold conditional; infer_instance
instance : Carries w (matchArm r) := by unfold matchArm; infer_instance
instance : Begins w (caseAnalysis r) := by unfold caseAnalysis; infer_instance
instance : Begins w (returning r ctx) := by unfold returning; infer_instance
instance (token : Token) : Begins w (operandOf r ctx token) := by
  unfold operandOf
  split
  · infer_instance
  · split <;> infer_instance
instance : Carries w (operand r ctx) := by
  have : Begins w (operand r ctx) := by unfold operand; infer_instance
  infer_instance
instance : Carries w (blockArgument r ctx) := by unfold blockArgument; infer_instance
instance (callee : ExprId) : Carries w (applied r ctx callee) := by unfold applied; infer_instance
instance : Carries w (application r ctx) := by unfold application; infer_instance
instance (text : String) (span : Span) : Carries w (signOperator text span) := by unfold signOperator; infer_instance
instance (token : Token) : Begins w (operatorOf token) := by
  unfold operatorOf
  split <;> infer_instance

/-- Neither the end nor the brace is an operator. -/
instance : Carries w operator? := by
  refine ⟨fun {v s t o s'} facing h => ?_⟩
  by_cases hv : v = []
  · subst hv
    have hs : s.cursor.current.kind = .eof := Dead.kind_of_isAtEnd facing.isAtEnd
    have ht : t.cursor.current.kind = .rbrace := by
      rw [Cursor.current_eq, facing.right]
      exact TokenKind.eq_of_tag w.closing rfl
    have hleft : operator? s = (note .binaryOperator >>= fun _ => pure none) s := by
      show operatorOf s.cursor.current s = _
      rw [operatorOf, hs]
    have hright : operator? t = (note .binaryOperator >>= fun _ => pure none) t := by
      show operatorOf t.cursor.current t = _
      rw [operatorOf, ht]
    rw [hleft] at h
    rw [hright]
    exact Carries.carries facing h
  · have : Begins w operator? := by unfold operator?; infer_instance
    exact this.begins facing hv h

instance (lhs : ExprId) (op : Ident) : Carries w (joined r ctx lhs op) := by unfold joined; infer_instance

instance (lhs : ExprId) : Carries w (chainTurn r ctx lhs) := by
  have := Has.afterOperator (fun _ => Carries w) lhs (joined r ctx lhs)
  unfold chainTurn
  infer_instance
instance : Carries w (chain r ctx) := by unfold chain; infer_instance
instance (value : ExprId) : Carries w (ascribed r value) := by unfold ascribed; infer_instance
instance (value : ExprId) : Carries w (annotationTurn r value) := by unfold annotationTurn; infer_instance
instance : Carries w (annotated r ctx) := by unfold annotated; infer_instance
instance (params : ParamSet) : Carries w (sigmaResult r ctx params) := by unfold sigmaResult; infer_instance
instance : Carries w (sigma r ctx) := by unfold sigma; infer_instance
instance (params : ParamSet) : Carries w (arrowResult r ctx params) := by unfold arrowResult; infer_instance
instance (domain : ExprId) : Carries w (domainResult r ctx domain) := by unfold domainResult; infer_instance
instance : Carries w (domainArrow r ctx) := by unfold domainArrow; infer_instance
instance : Carries w (arrow r ctx) := by unfold arrow; infer_instance
instance (tag : Tag) [TagSet.Within (.single tag)] : Carries w (isBefore tag) := by unfold isBefore; infer_instance
instance (start : Span) (params : List PatternId) : Carries w (lambdaBody r ctx start params) := by
  unfold lambdaBody; infer_instance
instance : Carries w (lambda r ctx) := by unfold lambda; infer_instance
instance : Begins w (letStmt r) := by unfold letStmt; infer_instance
instance stmt : Carries w (stmt r) := by unfold Grammar.stmt; infer_instance
instance (stmts : List Stmt) : Carries w (rejectOpenIf stmts) := by
  unfold rejectOpenIf
  split <;> infer_instance
instance : Carries w (block r) := by unfold block; infer_instance

end Carries

instance Rules.carries_exhausted (w : Enclosure) : Rules.exhausted.Carries w :=
  ⟨fun _ => inferInstanceAs (Grammar.Carries w Parse.exhausted),
    fun _ => inferInstanceAs (Grammar.Carries w Parse.exhausted),
    inferInstanceAs (Grammar.Carries w Parse.exhausted)⟩

instance Rules.carries_rules (w : Enclosure) (n : Nat) : (rules n).Carries w := by
  induction n with
  | zero => exact inferInstanceAs (Rules.exhausted.Carries w)
  | succ n ih =>
    exact ⟨fun ctx => inferInstanceAs (Grammar.Carries w (lambda (rules n) ctx)),
      fun ctx => inferInstanceAs (Grammar.Carries w (Grammar.arrow (rules n) ctx)),
      inferInstanceAs (Grammar.Carries w (Grammar.block (rules n)))⟩

/-! ## A brace in place of an end -/

end Grammar

namespace Cursor

/-- A cursor at the same place, with other tokens from there on. -/
def withRest (c : Cursor) (r : List Token) : Cursor :=
  { c with tokens := .ofTokens (c.tokens.toList.take c.position ++ r) }

variable {c : Cursor} {r : List Token}

theorem position_lt_of_rest (h : c.rest ≠ []) : c.position < c.tokens.toList.length :=
  List.lt_length_of_take_ne_self fun e => h (by rw [rest, ← e, List.drop_take_self])

theorem rest_withRest (h : c.rest ≠ []) : (c.withRest r).rest = r := by
  have hlen : (c.tokens.toList.take c.position).length = c.position :=
    List.length_take_of_le (Nat.le_of_lt (position_lt_of_rest h))
  exact List.drop_left' hlen

theorem previousSpan_withRest (h : c.rest ≠ []) : (c.withRest r).previousSpan = c.previousSpan := by
  have hlt := position_lt_of_rest h
  have hposition : (c.withRest r).position = c.position := rfl
  rw [previousSpan, previousSpan, hposition]
  by_cases hpos : c.position = 0
  · rw [if_pos hpos, if_pos hpos]
  have hlast : c.position - 1 < c.position := by omega
  have hget : (c.withRest r).tokens.get? (c.position - 1) = c.tokens.get? (c.position - 1) := by
    rw [TokenList.get?, TokenList.get?, ← Array.getElem?_toList, ← Array.getElem?_toList]
    refine (List.getElem?_append_left (by rw [List.length_take]; omega)).trans ?_
    rw [List.getElem?_take_of_lt hlast]
    rfl
  rw [if_neg hpos, if_neg hpos, hget]

theorem size_withRest (h : r.length = c.rest.length) : (c.withRest r).tokens.size = c.tokens.size := by
  have hsize : (c.withRest r).tokens.size = (c.tokens.toList.take c.position ++ r).length := by
    simp [withRest, TokenList.size, TokenList.ofTokens]
  rw [hsize, List.length_append, h, rest, ← List.length_append, List.take_append_drop]
  simp [TokenList.toList, TokenList.size]

end Cursor

namespace Grammar

namespace Enclosure

/-- Ends in place of all tokens from a brace on. -/
def ofBrace {c : Token} (hc : c.tag = .rbrace) (post : List Token) : Enclosure where
  stop := ⟨.eof, c.span, .first⟩
  left := List.replicate post.length ⟨.eof, c.span, .first⟩
  brace := c
  right := post
  ended := rfl
  closing := hc
  span := rfl

/-- The left run, where the right one stands before `E`. -/
def before (w : Enclosure) (E : List Token) (t : State) : State :=
  { t with cursor := t.cursor.withRest (E ++ w.stop :: w.left) }

theorem facing_before {w : Enclosure} {E : List Token} {t : State} (hcloses : Closes 0 E)
    (ht : t.cursor.rest = E ++ w.brace :: w.right) (hlen : w.left.length = w.right.length) :
    Facing w E (w.before E t) t := by
  have hne : t.cursor.rest ≠ [] := by rw [ht]; simp
  have hsize : (w.before E t).cursor.tokens.size = t.cursor.tokens.size :=
    Cursor.size_withRest (by simp [ht, hlen])
  exact ⟨Cursor.rest_withRest hne, ht, ⟨0, hcloses⟩, (Cursor.previousSpan_withRest hne).symm, hsize.symm,
    rfl, rfl⟩

end Enclosure

open Enclosure

/-- What is read up to an end is read up to a brace that closes a block. -/
theorem Carries.reads_enclosed {p : Parse α} (hp : ∀ w, Carries w p) {t : State} {E post : List Token}
    {c : Token} (hc : c.tag = .rbrace) (hcloses : Closes 0 E) (ht : t.cursor.rest = E ++ c :: post) :
    ∃ s stops, headTag stops = .eof ∧ s.cursor.rest = E ++ stops ∧ s.names = t.names ∧ s.arena = t.arena ∧
      s.bound = t.bound ∧ ∀ a s', p s = .ok a s' → s'.cursor.rest = stops →
        ∃ t', p t = .ok a t' ∧ t'.cursor.rest = c :: post ∧ t'.names = s'.names ∧ t'.arena = s'.arena := by
  have facing : Facing (ofBrace hc post) E ((ofBrace hc post).before E t) t :=
    facing_before hcloses ht List.length_replicate
  refine ⟨_, (ofBrace hc post).stop :: (ofBrace hc post).left, rfl, facing.left, rfl, rfl,
    congrArg (· + 1) facing.size.symm, fun a s' h hs' => ?_⟩
  obtain ⟨v, t', hp', facing'⟩ := (hp _).carries facing h
  obtain rfl : v = [] := List.self_eq_append_left.1 (hs'.symm.trans facing'.left)
  exact ⟨t', hp', facing'.right, facing'.names, facing'.arena⟩

end Grammar

end SolSyntax
