import SolSyntax.Proofs.Ownership
import SolSyntax.Proofs.Steps

/-!
# What a step makes

`Makes use p post`: a step that is given the parts `use` puts them into new nodes or hands them on, and
holds the parts `post x` when it gives `x`.  Whatever else is held meanwhile stays untouched, and what is
held comes in the order in which it was made; so a step says what it does with the last parts alone.
A step that fails may lose what it has made.

Principal results: `Makes.bind`, `Makes.first` — one step after another; `Makes.newExpr` — a node of the
parts at hand; `Makes.many`, `Makes.bracketed`, `Makes.braced` — rows and lists.
-/

namespace SolSyntax.Grammar

open Parse

/-! ## Steps that leave the nodes alone -/

/-- A step that makes no node and changes none. -/
class Quiet (p : Parse α) : Prop where
  arena : ∀ s, (final (p s)).arena = s.arena

namespace Quiet

variable {p : Parse α}

theorem bind [hp : Quiet p] {f : α → Parse β} [hf : ∀ x, Quiet (f x)] : Quiet (p >>= f) := by
  refine ⟨fun s => ?_⟩
  have h := hp.arena s
  show (final (EStateM.bind p f s)).arena = s.arena
  unfold EStateM.bind
  cases e : p s with
  | ok x t =>
    rw [e] at h
    exact ((hf x).arena t).trans h
  | error x t =>
    rw [e] at h
    exact h

theorem within [hp : Quiet p] (what : Construct) : Quiet (within what p) := by
  refine ⟨fun s => ?_⟩
  have h := hp.arena s
  unfold Parse.within
  cases e : p s <;> rw [e] at h <;> exact h

theorem ofTryStep (f : Cursor → Except SyntaxError α × Cursor) : Quiet (tryStep f) := by
  refine ⟨fun s => ?_⟩
  unfold tryStep
  split <;> rfl

instance : Sequential @Quiet where
  pure _ := ⟨fun _ => rfl⟩
  bind _ _ := bind
  exhausted := ⟨fun _ => rfl⟩
  within what _ := within what
  bounded h := ⟨fun s => (h s.bound).arena s⟩

instance : Closed @Quiet where
  look _ := ⟨fun _ => rfl⟩
  note _ := ⟨fun _ => rfl⟩
  check _ := ⟨fun _ => rfl⟩
  checkSet _ := ⟨fun _ => rfl⟩
  advance := ⟨fun _ => rfl⟩
  expect _ := ofTryStep _
  expectIdent := ofTryStep _
  skipNewlines := ⟨fun _ => rfl⟩
  eatSeparators := ⟨fun _ => rfl⟩
  fail _ := ⟨fun _ => rfl⟩
  unclosed _ _ := ⟨fun _ => rfl⟩
  exprSpan _ := ⟨fun _ => rfl⟩
  patternSpan _ := ⟨fun _ => rfl⟩
  intern _ := ⟨fun _ => rfl⟩
  isClosedForm _ := ⟨fun _ => rfl⟩
  isOpenIf _ := ⟨fun _ => rfl⟩

instance (f : Cursor → α) : Quiet (look f) := ⟨fun _ => rfl⟩

instance (c : Complaint) : Quiet (fail c : Parse α) := ⟨fun _ => rfl⟩

instance (s : TagSet) (c : Complaint) : Quiet (failWanting s c : Parse α) := by
  have : Quiet (note s) := ⟨fun _ => rfl⟩
  exact bind

instance [h : Has @Quiet p] : Quiet p := h.has

end Quiet

/-! ## Steps that make nodes -/

/-- What is held after a step. -/
def After (held : List Use) (post : α → List Use) : EStateM.Result Failure State α → Prop
  | .ok x t => t.arena.Balanced (held ++ post x)
  | .error _ t => ∃ lost, t.arena.Balanced (held ++ lost)

/-- A step that makes of the last parts held, `use`, what it then holds. -/
def Makes (use : List Use) (p : Parse α) (post : α → List Use) : Prop :=
  ∀ (s : State) (held : List Use), s.arena.Balanced (held ++ use) → After held post (p s)

/-- A step can give `x`. -/
def Returns (p : Parse α) (x : α) : Prop := ∃ s t, p s = .ok x t

theorem Returns.of_bind {p : Parse α} {f : α → Parse β} {y : β} (h : Returns (p >>= f) y) :
    ∃ x, Returns p x ∧ Returns (f x) y := by
  obtain ⟨s, t, h⟩ := h
  obtain ⟨x, u, hx, hy⟩ := exists_of_bind_ok h
  exact ⟨x, ⟨s, u, hx⟩, u, t, hy⟩

theorem Returns.of_pure {x y : α} (h : Returns (pure x) y) : y = x := by
  obtain ⟨s, t, h⟩ := h
  cases h
  rfl

namespace Makes

variable {p : Parse α} {use use' rest : List Use} {mid post : α → List Use}
  {f : α → Parse β} {out : β → List Use}

/-- Parts are handed on. -/
theorem give {x : α} (h : use = post x) : Makes use (pure x) post := by
  intro s held hs
  show s.arena.Balanced (held ++ post x)
  rw [← h]
  exact hs

/-- A step that makes nothing hands its parts on. -/
theorem ofQuiet [hq : Quiet p] (h : ∀ x, Returns p x → use = post x) : Makes use p post := by
  intro s held hs
  have harena := hq.arena s
  cases e : p s with
  | ok x t =>
    rw [e] at harena
    show t.arena.Balanced (held ++ post x)
    rw [← h x ⟨s, t, e⟩, show t.arena = s.arena from harena]
    exact hs
  | error x t =>
    rw [e] at harena
    exact ⟨use, (show t.arena = s.arena from harena) ▸ hs⟩

/-- One step after another, of which the first takes some of the parts. -/
theorem bind' (hp : Makes use p mid) (hf : ∀ x, Returns p x → Makes (rest ++ mid x) (f x) out) :
    Makes (rest ++ use) (p >>= f) out := by
  intro s held hs
  rw [← List.append_assoc] at hs
  have first := hp s (held ++ rest) hs
  show After held out (EStateM.bind p f s)
  unfold EStateM.bind
  cases e : p s with
  | ok x t =>
    rw [e] at first
    have first : t.arena.Balanced (held ++ rest ++ mid x) := first
    rw [List.append_assoc] at first
    exact hf x ⟨s, t, e⟩ t held first
  | error x t =>
    rw [e] at first
    obtain ⟨lost, hlost⟩ := first
    rw [List.append_assoc] at hlost
    exact ⟨_, hlost⟩

theorem bind (hp : Makes use p mid) (hf : ∀ x, Makes (rest ++ mid x) (f x) out) :
    Makes (rest ++ use) (p >>= f) out := bind' hp fun x _ => hf x

/-- The first step takes all parts. -/
theorem andThen (hp : Makes use p mid) (hf : ∀ x, Makes (mid x) (f x) out) :
    Makes use (p >>= f) out := by
  rw [← List.nil_append use]
  exact bind hp hf

/-- The first step takes none of the parts. -/
theorem first' (hp : Makes [] p mid) (hf : ∀ x, Returns p x → Makes (use ++ mid x) (f x) out) :
    Makes use (p >>= f) out := by
  rw [← List.append_nil use]
  exact bind' hp hf

theorem first (hp : Makes [] p mid) (hf : ∀ x, Makes (use ++ mid x) (f x) out) :
    Makes use (p >>= f) out := first' hp fun x _ => hf x

/-- The first step makes nothing. -/
theorem quiet [Quiet p] (hf : ∀ x, Makes use (f x) out) : Makes use (p >>= f) out := by
  have hquiet : Makes [] p fun _ => [] := ofQuiet fun _ _ => rfl
  refine first hquiet fun x => ?_
  rw [List.append_nil]
  exact hf x

theorem ite {c : Prop} [Decidable c] {q : Parse α} (hp : c → Makes use p post)
    (hq : ¬c → Makes use q post) : Makes use (if c then p else q) post := by
  split
  · exact hp ‹_›
  · exact hq ‹_›

/-- A step may be given more than it needs of its parts, -/
theorem widen (h : Makes use' p post) (hw : Widened use use') : Makes use p post :=
  fun s held hs => h s held (hs.widen ((Widened.refl held).append hw))

/-- and less may be asked of what it gives. -/
theorem loosen (h : Makes use p mid) (hw : ∀ x, Widened (mid x) (post x)) : Makes use p post := by
  intro s held hs
  have := h s held hs
  cases e : p s with
  | ok x t =>
    rw [e] at this
    exact this.widen ((Widened.refl held).append (hw x))
  | error x t =>
    rw [e] at this
    exact this

/-- The same expression, of which less is asked. -/
theorem slot {p : Parse ExprId} {s t : Slot} (h : Makes use p fun id => [.expr s id])
    (hw : s.Within t) : Makes use p fun id => [.expr t id] := h.loosen fun id => .one hw id

theorem within (h : Makes use p post) (what : Construct) : Makes use (within what p) post := by
  intro s held hs
  have := h s held hs
  unfold Parse.within
  cases e : p s with
  | ok x t =>
    rw [e] at this
    exact this
  | error x t =>
    rw [e] at this
    exact this

theorem bounded {p : Nat → Parse α} (h : ∀ n, Makes use (p n) post) : Makes use (bounded p) post :=
  fun s held hs => h s.bound s held hs

/-- A step that makes nothing and gives nothing. -/
theorem ofFailing [Quiet p] (h : ∀ s x t, p s ≠ .ok x t) : Makes use p post := by
  refine ofQuiet fun x hx => ?_
  obtain ⟨s, t, hrun⟩ := hx
  exact (h s x t hrun).elim

theorem exhausted : Makes use (exhausted : Parse α) post := ofFailing fun _ _ _ h => by cases h

theorem fail (c : Complaint) : Makes use (fail c : Parse α) post := ofFailing fun _ _ _ h => by cases h

theorem failWanting (s : TagSet) (c : Complaint) : Makes use (failWanting s c : Parse α) post :=
  ofFailing fun _ _ _ h => by cases h

/-! ### Nodes -/

/-- A new expression is made of all its parts. -/
theorem newExpr {kind : ExprKind} {slot : Slot} (span : Span) (hslot : slot.admits kind = true)
    (hproper : kind.IsProper) (huse : use = kind.uses) :
    Makes use (newExpr kind span) fun id => [.expr slot id] := by
  subst huse
  exact fun s held hs => hs.newExpr hproper hslot span

theorem newPattern {kind : PatternKind} (span : Span) (huse : use = kind.uses) :
    Makes use (newPattern kind span) fun id => [.pattern id] := by
  subst huse
  exact fun s held hs => hs.newPattern span

/-! ### Loops -/

/-- What is held after a turn of a loop: as before the next turn, or as after the last. -/
def turned (inv out : β → List Use) : ForInStep β → List Use
  | .done b => out b
  | .yield b => inv b

theorem turns {body : β → Parse (ForInStep β)} {inv : β → List Use}
    (h : ∀ b, Makes (inv b) (body b) (turned inv out)) (n : Nat) (b : β) :
    Makes (inv b) (turns body n b) out := by
  induction n generalizing b with
  | zero => exact exhausted
  | succ n ih =>
    refine (h b).andThen fun step => ?_
    cases step with
    | done b => exact give rfl
    | yield b => exact ih b

theorem repeating {body : β → Parse (ForInStep β)} (inv : β → List Use)
    (h : ∀ b, Makes (inv b) (body b) (turned inv out)) (b : β) :
    Makes (inv b) (repeating body b) out := bounded fun n => turns h n b

theorem optionally {test : Parse Bool} [Quiet test] (h : Makes [] p post) :
    Makes [] (optionally test p) fun o => o.toList.flatMap post := by
  refine quiet fun c => ite (fun _ => ?_) fun _ => give rfl
  exact h.first fun x => give (by simp)

theorem many {item : Parse (Option α)} (h : Makes [] item fun o => o.toList.flatMap post) :
    Makes [] (many item) fun xs => xs.flatMap post := by
  have loop : Makes [] (Parse.repeating (manyTurn item) []) fun xs => xs.reverse.flatMap post := by
    refine repeating (fun xs => xs.reverse.flatMap post) (fun xs => ?_) []
    refine h.first fun o => ?_
    cases o with
    | none => exact give (List.append_nil _)
    | some x => exact give (by simp [turned])
  exact loop.first fun xs => give rfl

/-! ### Lists -/

section Lists

variable {close : Tag} {separator : Parse Bool} [Quiet separator]

theorem sequence (h : Makes [] p post) :
    Makes [] (sequence close p separator) fun found => found.1.flatMap post := by
  have loop : Makes [] (Parse.repeating (sequenceTurn close p separator) ([], false))
      fun found => found.1.reverse.flatMap post := by
    refine repeating (fun found => found.1.reverse.flatMap post) (fun found => ?_) ([], false)
    refine quiet fun closes => ite (fun _ => give rfl) fun _ => ?_
    refine h.first fun x => quiet fun more => ite (fun _ => ?_) fun _ => ?_
    · exact give (by simp [turned])
    · exact give (by simp [turned])
  exact loop.first fun found => give rfl

theorem bracketed (h : Makes [] p post) :
    Makes [] (bracketed close p) fun found => found.items.flatMap post := by
  refine quiet fun opening => quiet fun _ => (sequence h).first fun found => ?_
  exact quiet fun closing => give rfl

theorem braced {finish : List α → Parse Unit} {out : List α → List Use} (h : Makes [] p post)
    (hf : ∀ xs, Makes (xs.flatMap post) (finish xs) fun _ => out xs) :
    Makes [] (braced p separator finish) fun found => out found.1 := by
  refine quiet fun opening => quiet fun _ => (sequence h).first fun found => ?_
  exact (hf found.1).andThen fun _ => quiet fun closing => give rfl

end Lists

end Makes

end SolSyntax.Grammar
