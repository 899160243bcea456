import SolSyntax.Parsing
import SolSyntax.Proofs.Lookahead
import SolSyntax.Proofs.Productions
import SolSyntax.Proofs.Storage

/-!
# Parsing moves forward

Whatever a production reads and however it ends, it does so on the same tokens, never steps back and
never forgets a name; and it does the same if it finds the names there that it would have added.
`Forward` says so; it is `Closed` and `Binding`, and reading an expression again as a type moves forward
too, so that every production up to `declLine` does.

Principal results: `Forward.bind` — one step after another; `Rules.forward_rules` — the readers of
expressions, types and blocks move forward.
-/

namespace SolSyntax

/-- The cursor is at the same place or further on in the same tokens. -/
structure Cursor.Onward (c d : Cursor) : Prop where
  tokens : d.tokens = c.tokens
  position : c.position ≤ d.position
  /-- It does not pass an end. -/
  stop : ∀ n, c.tokens.tagAt n = .eof → c.position ≤ n → d.position ≤ n

namespace Cursor

theorem Onward.refl (c : Cursor) : c.Onward c := ⟨rfl, Nat.le_refl _, fun _ _ => id⟩

theorem Onward.trans {c d e : Cursor} (h : c.Onward d) (k : d.Onward e) : c.Onward e :=
  ⟨k.tokens.trans h.tokens, Nat.le_trans h.position k.position,
    fun n hn hc => k.stop n (h.tokens ▸ hn) (h.stop n hn hc)⟩

theorem Onward.bound {c d : Cursor} (h : c.Onward d) (hc : c.position ≤ c.tokens.size) :
    d.position ≤ c.tokens.size :=
  h.stop _ (TokenList.tagAt_of_size_le (Nat.le_refl _)) hc

theorem onward_note (c : Cursor) (s : TagSet) : c.Onward (c.note s) := ⟨rfl, Nat.le_refl _, fun _ _ => id⟩

theorem onward_check (c : Cursor) (t : Tag) : c.Onward (c.check t).2 := by
  unfold check
  split
  · exact .refl c
  · exact c.onward_note _

theorem onward_checkSet (c : Cursor) (s : TagSet) : c.Onward (c.checkSet s).2 := by
  unfold checkSet
  split
  · exact .refl c
  · exact c.onward_note _

theorem position_lt_of_not_isAtEnd {c : Cursor} (h : c.isAtEnd = false) :
    c.position < c.tokens.size := by
  apply Nat.lt_of_not_le
  intro hn
  have : c.currentTag = .eof := TokenList.tagAt_of_size_le hn
  simp [isAtEnd, isAt, this] at h

theorem onward_advance (c : Cursor) : c.Onward c.advance.2 := by
  unfold advance
  by_cases h : c.isAtEnd = true
  · simp only [if_pos h]
    exact .refl c
  · simp only [if_neg h]
    refine ⟨rfl, Nat.le_succ _, fun n hn hc => Nat.lt_of_le_of_ne hc ?_⟩
    rintro rfl
    exact h (beq_iff_eq.2 hn)

theorem onward_expect (c : Cursor) (t : Tag) : c.Onward (c.expect t).2 := by
  have h := c.onward_check t
  unfold expect
  split
  · rename_i d e
    rw [e] at h
    exact h.trans d.onward_advance
  · rename_i d e
    rwa [e] at h

theorem onward_expectIdent (c : Cursor) : c.Onward c.expectIdent.2 := by
  unfold expectIdent
  split
  · exact c.onward_advance
  · exact c.onward_advance
  · exact c.onward_note _

theorem skipFrom_le_stop {ts : TokenList} {p : Tag → Bool} (hp : p .eof = false) {n : Nat}
    (hn : ts.tagAt n = .eof) {i : Nat} (h : i ≤ n) : skipFrom ts p i ≤ n := by
  fun_induction skipFrom ts p i with
  | case1 i hi ih =>
    refine ih (Nat.lt_of_le_of_ne h ?_)
    rintro rfl
    rw [hn, hp] at hi
    cases hi.2
  | case2 i hi => exact h

theorem onward_skip (c : Cursor) {p : Tag → Bool} (hp : p .eof = false) :
    c.Onward { c with position := skipFrom c.tokens p c.position } :=
  ⟨rfl, le_skipFrom _ _ _, fun _ hn => skipFrom_le_stop hp hn⟩

theorem onward_eatSeparators (c : Cursor) : c.Onward c.eatSeparators.2 := by
  unfold eatSeparators
  simp only
  split
  · exact c.onward_note _
  · exact c.onward_skip rfl

end Cursor

namespace Grammar

/-- Later in the same parse. -/
structure State.Onward (s t : State) : Prop where
  cursor : s.cursor.Onward t.cursor
  names : s.names.Kept t.names

namespace State.Onward

variable {s t u : State}

theorem refl (s : State) : s.Onward s := ⟨.refl _, .refl _⟩

theorem trans (h : s.Onward t) (k : t.Onward u) : s.Onward u :=
  ⟨h.cursor.trans k.cursor, h.names.trans k.names⟩

/-- What is left only gets shorter. -/
theorem length_le (h : s.Onward t) : t.cursor.rest.length ≤ s.cursor.rest.length := by
  have := h.cursor.position
  rw [Cursor.rest, Cursor.rest, h.cursor.tokens, List.length_drop, List.length_drop]
  omega

end State.Onward

/-- The state in which a step leaves. -/
def final : EStateM.Result ε σ α → σ
  | .ok _ s => s
  | .error _ s => s

/-- Whether a run succeeds with a value and in a state of a kind. -/
def succeeds (r : EStateM.Result ε σ α) (p : α → σ → Bool) : Bool :=
  match r with
  | .ok a s => p a s
  | .error _ _ => false

theorem exists_of_succeeds {r : EStateM.Result ε σ α} {p : α → σ → Bool} (h : succeeds r p = true) :
    ∃ a s, r = .ok a s ∧ p a s = true := by
  cases r with
  | ok a s => exact ⟨a, s, rfl, h⟩
  | error e s => cases h

/-- The same place and nodes, with other names. -/
def State.withNames (s : State) (names : Interner) : State := { s with names }

/-- The same end, with other names. -/
def withNames (names : Interner) : EStateM.Result ε State α → EStateM.Result ε State α
  | .ok a s => .ok a (s.withNames names)
  | .error e s => .error e (s.withNames names)

/-- A step that moves forward, whether it succeeds or fails. -/
class Forward (p : Parse α) : Prop where
  onward : ∀ s : State, s.Onward (final (p s))
  /-- If all the names are there already in which the step ends, it does the same and adds none. -/
  stable : ∀ (s : State) (names : Interner), (final (p s)).names.Kept names →
    p (s.withNames names) = withNames names (p s)

open Parse

namespace Forward

variable {p : Parse α}

/-- A step on the cursor alone. -/
theorem ofStep {f : Cursor → α × Cursor} (h : ∀ c : Cursor, c.Onward (f c).2) : Forward (step f) :=
  ⟨fun s => ⟨h s.cursor, .refl _⟩, fun _ _ _ => rfl⟩

theorem ofTryStep {f : Cursor → Except SyntaxError α × Cursor} (h : ∀ c : Cursor, c.Onward (f c).2) :
    Forward (tryStep f) := by
  refine ⟨fun s => ?_, fun s names _ => ?_⟩
  · have := h s.cursor
    unfold tryStep
    split
    · rename_i e
      rw [e] at this
      exact ⟨this, .refl _⟩
    · rename_i e
      rw [e] at this
      exact ⟨this, .refl _⟩
  · have hcursor : (s.withNames names).cursor = s.cursor := rfl
    simp only [tryStep, hcursor]
    obtain ⟨_ | _, _⟩ := f s.cursor <;> rfl

/-- A step that changes nothing and does not ask for names. -/
theorem ofStill (h : ∀ s, final (p s) = s) (hnames : ∀ s names, p (s.withNames names) = withNames names (p s)) :
    Forward p :=
  ⟨fun s => (h s).symm ▸ .refl s, fun s names _ => hnames s names⟩

/-! ### One step after another -/

theorem bind [Forward p] {f : α → Parse β} [hf : ∀ a, Forward (f a)] : Forward (p >>= f) := by
  refine ⟨fun s => ?_, fun s names hn => ?_⟩
  · have h := Forward.onward (p := p) s
    show s.Onward (final (EStateM.bind p f s))
    unfold EStateM.bind
    cases e : p s with
    | ok a t =>
      rw [e] at h
      exact h.trans ((hf a).onward t)
    | error x t =>
      rw [e] at h
      exact h
  · have first := Forward.stable (p := p) s names
    change (final (EStateM.bind p f s)).names.Kept names at hn
    show EStateM.bind p f (s.withNames names) = withNames names (EStateM.bind p f s)
    unfold EStateM.bind at hn ⊢
    cases e : p s with
    | ok a t =>
      rw [e] at first hn
      rw [first (((hf a).onward t).names.trans hn)]
      exact (hf a).stable t names hn
    | error x t =>
      rw [e] at first hn
      rw [first hn]
      rfl

theorem within [Forward p] (what : Construct) : Forward (within what p) := by
  refine ⟨fun s => ?_, fun s names hn => ?_⟩
  · have h := Forward.onward (p := p) s
    unfold Parse.within
    cases e : p s <;> rw [e] at h <;> exact h
  · have first := Forward.stable (p := p) s names
    unfold Parse.within at hn ⊢
    cases e : p s <;> rw [e] at first hn <;> rw [first hn] <;> rfl

/-! ### Single steps -/

instance (f : Cursor → α) : Forward (look f) := ofStill (fun _ => rfl) fun _ _ => rfl
instance (e : SyntaxError) : Forward (raise e : Parse α) := ofStill (fun _ => rfl) fun _ _ => rfl
instance (complaint : Complaint) : Forward (fail complaint : Parse α) := ofStill (fun _ => rfl) fun _ _ => rfl

theorem intern (text : String) : Forward (intern text) := by
  refine ⟨fun _ => ⟨.refl _, .intern _ _⟩, fun s names hn => ?_⟩
  show EStateM.Result.ok (names.intern text).1 { s.withNames names with names := (names.intern text).2 } = _
  rw [Interner.Kept.intern_eq hn]
  rfl

theorem newExpr (kind : ExprKind) (span : Span) : Forward (newExpr kind span) :=
  ⟨fun _ => ⟨.refl _, .refl _⟩, fun _ _ _ => rfl⟩

instance (id : ExprId) : Forward (toType id) := by
  refine ⟨fun s => ?_, fun s names _ => ?_⟩
  · unfold toType
    split <;> exact ⟨.refl _, .refl _⟩
  · unfold toType
    rw [show (s.withNames names).arena = s.arena from rfl]
    obtain ⟨_ | _, _⟩ := s.arena.toType id <;> rfl

/-! ### Productions -/

instance : Sequential @Forward where
  pure _ := ofStill (fun _ => rfl) fun _ _ => rfl
  bind _ _ := bind
  exhausted := ofStill (fun _ => rfl) fun _ _ => rfl
  within what _ := within what
  bounded h := ⟨fun s => (h s.bound).onward s, fun s => (h s.bound).stable s⟩

instance : Closed @Forward where
  look _ := inferInstance
  note set := ofStep fun c => c.onward_note set
  check tag := ofStep fun c => c.onward_check tag
  checkSet set := ofStep fun c => c.onward_checkSet set
  advance := ofStep Cursor.onward_advance
  expect tag := ofTryStep fun c => c.onward_expect tag
  expectIdent := ofTryStep Cursor.onward_expectIdent
  skipNewlines := ofStep fun c => c.onward_skip rfl
  eatSeparators := ofStep Cursor.onward_eatSeparators
  fail _ := inferInstance
  unclosed _ _ := bind
  exprSpan _ := ofStill (fun _ => rfl) fun _ _ => rfl
  patternSpan _ := ofStill (fun _ => rfl) fun _ _ => rfl
  intern := intern
  isClosedForm _ := ofStill (fun _ => rfl) fun _ _ => rfl
  isOpenIf _ := ofStill (fun _ => rfl) fun _ _ => rfl

instance : Storing @Forward where
  newPattern _ _ := ⟨fun _ => ⟨.refl _, .refl _⟩, fun _ _ _ => rfl⟩
  newExpr kind _ := newExpr kind

instance : Binding @Forward := ⟨newExpr⟩

instance [h : Has @Forward p] : Forward p := h.has

instance (priority := low) [h : Forward p] : Has @Forward p := ⟨h⟩

end Forward

/-- Readers that move forward. -/
class Rules.Forward (r : Rules) : Prop where
  expr : ∀ ctx, Grammar.Forward (r.expr ctx)
  arrow : ∀ ctx, Grammar.Forward (r.arrow ctx)
  block : Grammar.Forward r.block

instance {r : Rules} [h : r.Forward] : r.Have @Forward := ⟨h.expr, h.arrow, h.block⟩

instance Rules.forward_rules (n : Nat) : (rules n).Forward :=
  have h : (rules n).Have @Grammar.Forward := Rules.have_rules (fun _ _ _ => inferInstance) n
  ⟨h.expr, h.arrow, h.block⟩

end Grammar

end SolSyntax
