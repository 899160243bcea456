import SolSyntax.Proofs.Forward
import SolSyntax.Proofs.Growth
import SolSyntax.Proofs.Relocation

/-!
# Two runs side by side

Two parses of different token lists read the same tokens for a while: `Window` says what comes after
those in either list, `Aligned` that both runs stand before the same tokens.  `Meet` compares how two
steps end.  A step that only sees the common tokens ends alike in both runs; one that sees more has
passed the line break that comes after them.  With nothing after the common tokens the two lists are
equal, and what is said of two runs holds of one.

Principal results: `Meet.bind` — steps one after the other; `Meet.repeating` — loops; the lemmas on
`Both` — what each elementary step does to runs that stand at the same place.
-/

namespace SolSyntax.Grammar

open Outline (leaf node)

/-! ## Where two runs stand -/

/-- What follows the tokens that two lists have in common. -/
inductive Tails : List Token → List Token → Prop
  /-- Nothing. -/
  | none : Tails [] []
  /-- A line break in both lists, and no `else` after it. -/
  | line {a b} : headTag a = .newline → headTag b = .newline →
      (headToken a).span = (headToken b).span → headTag (skipBreaks a) ≠ .kwElse →
      headTag (skipBreaks b) ≠ .kwElse → Tails a b
  /-- The end in one list, a line break and no `else` in the other. -/
  | ended {a b} : headTag a = .eof → headTag b = .newline → headTag (skipBreaks b) ≠ .kwElse →
      Tails a b

/-- Two lists of tokens, up to what they have in common. -/
structure Window where
  left : List Token
  right : List Token
  tails : Tails left right
  /-- If given, the right run stores behind this arena just what the left run stores. -/
  base : Option Arena := none
  /-- The runs may have come from different tokens before so many common ones. -/
  extent : Nat := 0
  /-- Whether the last common token may be a point where the left list ends. -/
  pointed : Bool := false

namespace Window

/-- The same list twice. -/
def whole : Window := { left := [], right := [], tails := .none }

/-- The same list twice, where the right run stores behind `base`. -/
def behind (base : Arena) (extent : Nat) : Window := { whole with base := some base, extent }

/-- The left list ends where the right one goes on at a line break, and both runs store the same. -/
def cut {e n : Token} {r : List Token} (he : e.tag = .eof) (hn : n.tag = .newline)
    (hr : headTag (skipBreaks (n :: r)) ≠ .kwElse) (extent : Nat) (pointed : Bool) : Window where
  left := [e]
  right := n :: r
  tails := .ended he hn hr
  base := some .empty
  extent
  pointed

/-- The lists go on differently. -/
def Differs (w : Window) : Prop := headTag w.right = .newline

/-- Both lists go on with a line break. -/
def IsLine (w : Window) : Prop := headTag w.left = .newline

/-- The left list ends where the right one goes on. -/
def IsEnded (w : Window) : Prop := headTag w.left = .eof ∧ w.Differs

/-- The right list has nothing but one more line break. -/
def IsBare (w : Window) : Prop :=
  ∃ e n e' : Token, e.tag = .eof ∧ n.tag = .newline ∧ e'.tag = .eof ∧ w.left = [e] ∧ w.right = [n, e']

variable (w : Window)

theorem left_tag : headTag w.left = .newline ∨ headTag w.left = .eof := by
  obtain ⟨a, b, h, -, -, -⟩ := w
  cases h with
  | none => exact .inr rfl
  | line h => exact .inl h
  | ended h => exact .inr h

theorem right_tag : headTag w.right = .newline ∨ headTag w.right = .eof := by
  obtain ⟨a, b, h, -, -, -⟩ := w
  cases h with
  | none => exact .inr rfl
  | line _ h => exact .inl h
  | ended _ h => exact .inl h

theorem cases_tails : (w.left = [] ∧ w.right = []) ∨ w.IsLine ∧ w.Differs ∨ w.IsEnded := by
  obtain ⟨a, b, h, -, -, -⟩ := w
  cases h with
  | none => exact .inl ⟨rfl, rfl⟩
  | line h k => exact .inr (.inl ⟨h, k⟩)
  | ended h k => exact .inr (.inr ⟨h, k⟩)

end Window

/-- What the right run has is what the left run has, behind the base. -/
def Same {α : Type} [Relocate α] (w : Window) (a b : α) : Prop :=
  ∀ base, w.base = some base → b = relocate base.mark a

namespace Same

variable {w : Window} {α β γ δ : Type} [Relocate α] [Relocate β] [Relocate γ] [Relocate δ]
  {a a' : α} {b b' : β} {c c' : γ}

/-- What is made of the same is the same, if it is made so everywhere. -/
theorem map (ha : Same w a a') (f : α → δ) (hf : ∀ m a, f (relocate m a) = relocate m (f a)) :
    Same w (f a) (f a') := by
  intro base h
  rw [ha base h, hf]

theorem map₂ (ha : Same w a a') (hb : Same w b b') (f : α → β → δ)
    (hf : ∀ m a b, f (relocate m a) (relocate m b) = relocate m (f a b)) :
    Same w (f a b) (f a' b') := by
  intro base h
  rw [ha base h, hb base h, hf]

theorem map₃ (ha : Same w a a') (hb : Same w b b') (hc : Same w c c') (f : α → β → γ → δ)
    (hf : ∀ m a b c, f (relocate m a) (relocate m b) (relocate m c) = relocate m (f a b c)) :
    Same w (f a b c) (f a' b' c') := by
  intro base h
  rw [ha base h, hb base h, hc base h, hf]

theorem some (ha : Same w a a') : Same w (some a) (some a') := ha.map Option.some fun _ _ => rfl

theorem cons {as as' : List α} (ha : Same w a a') (has : Same w as as') :
    Same w (a :: as) (a' :: as') := ha.map₂ has List.cons fun _ _ _ => rfl

theorem reverse {as as' : List α} (has : Same w as as') : Same w as.reverse as'.reverse :=
  has.map List.reverse fun _ _ => List.map_reverse.symm

end Same

/-- The right run has stored behind the base just what the left run has stored. -/
structure Twins (w : Window) (v : List Token) (base : Arena) (s t : State) : Prop where
  names : t.names = s.names
  arena : t.arena = s.arena.behind base
  extent : v.length ≤ w.extent
  /-- The token before the common ones may be another. -/
  previous : v.length < w.extent → t.cursor.previousSpan = s.cursor.previousSpan

/-- Both runs stand before `v` and then what the window says, with `d` brackets open. -/
structure Aligned (w : Window) (d : Nat) (v : List Token) (s t : State) : Prop where
  left : s.cursor.rest = v ++ w.left
  right : t.cursor.rest = v ++ w.right
  closes : w.Differs → ¬w.IsBare → Closes d v
  /-- What decides whether a point belongs to a path. -/
  dot : headTag v = .dot → s.cursor.previousSpan = t.cursor.previousSpan
  lastDot : w.IsEnded → w.pointed = false → ∀ t, v.getLast? = some t → t.tag ≠ .dot
  twins : ∀ base, w.base = some base → Twins w v base s t

/-- The cursor has passed `n` tokens, and nothing else has changed. -/
structure Moved (n : Nat) (s t : State) : Prop where
  tokens : t.cursor.tokens = s.cursor.tokens
  position : t.cursor.position = s.cursor.position + n
  arena : t.arena = s.arena
  names : t.names = s.names

theorem Moved.refl (s : State) : Moved 0 s s := ⟨rfl, rfl, rfl, rfl⟩

theorem Moved.trans {n m : Nat} {s t u : State} (h : Moved n s t) (k : Moved m t u) :
    Moved (n + m) s u :=
  ⟨k.tokens.trans h.tokens, by rw [k.position, h.position, Nat.add_assoc], k.arena.trans h.arena,
    k.names.trans h.names⟩

theorem Moved.rest {n : Nat} {s t : State} (m : Moved n s t) : t.cursor.rest = s.cursor.rest.drop n :=
  Cursor.rest_of_position m.tokens m.position

/-- Both runs have stored the same since `s` and `t`, and now stand side by side. -/
structure Both (w : Window) (s t : State) (d : Nat) (v : List Token) (s' t' : State)
    (x y : List (Outline Ref)) (ts : List (Outline TokenKind)) : Prop where
  aligned : Aligned w d v s' t'
  left : Grew s s' x ts
  right : Grew t t' y ts

theorem Aligned.both {w : Window} {d : Nat} {v : List Token} {s t : State} (h : Aligned w d v s t) :
    Both w s t d v s t [] [] [] := ⟨h, .refl _, .refl _⟩

/-- Both runs pass the same tokens. -/
theorem Aligned.step {w : Window} {d d' : Nat} {u v : List Token} {s t s' t' : State}
    (h : Aligned w d (u ++ v) s t) (hs : Moved u.length s s') (ht : Moved u.length t t')
    (hd : Closes d (u ++ v) → Closes d' v) : Aligned w d' v s' t' := by
  have passed : u = [] ∧ s'.cursor.previousSpan = s.cursor.previousSpan ∧
      t'.cursor.previousSpan = t.cursor.previousSpan ∨
      0 < u.length ∧ s'.cursor.previousSpan = t'.cursor.previousSpan := by
    by_cases hu : u = []
    · subst hu
      exact .inl ⟨rfl, Cursor.previousSpan_congr hs.tokens hs.position,
        Cursor.previousSpan_congr ht.tokens ht.position⟩
    · refine .inr ⟨List.length_pos_iff.2 hu, ?_⟩
      rw [Cursor.previousSpan_of_position hs.tokens hs.position (by rw [h.left, List.append_assoc]) hu,
        Cursor.previousSpan_of_position ht.tokens ht.position (by rw [h.right, List.append_assoc]) hu]
  refine ⟨?_, ?_, fun hw hn => hd (h.closes hw hn), fun hv => ?_, fun hw hp tok htok => ?_,
    fun base hb => ?_⟩
  · rw [hs.rest, h.left, List.append_assoc, List.drop_left]
  · rw [ht.rest, h.right, List.append_assoc, List.drop_left]
  · obtain ⟨rfl, hs', ht'⟩ | ⟨-, heq⟩ := passed
    · rw [hs', ht']
      exact h.dot hv
    · exact heq
  · refine h.lastDot hw hp tok ?_
    rw [List.getLast?_append, htok]
    rfl
  · obtain ⟨hnames, harena, hextent, hprev⟩ := h.twins base hb
    rw [List.length_append] at hextent hprev
    refine ⟨by rw [hs.names, ht.names, hnames], by rw [hs.arena, ht.arena, harena], by omega, ?_⟩
    intro hlt
    obtain ⟨rfl, hs', ht'⟩ | ⟨-, heq⟩ := passed
    · rw [hs', ht']
      exact hprev (by simpa using hlt)
    · exact heq.symm

/-- Both runs change what they have stored, and stay where they are. -/
theorem Aligned.of_cursor {w : Window} {d : Nat} {v : List Token} {s t s' t' : State}
    (h : Aligned w d v s t) (hs : s'.cursor = s.cursor) (ht : t'.cursor = t.cursor)
    (hn : t.names = s.names → t'.names = s'.names)
    (ha : ∀ base, w.base = some base → t.names = s.names → t.arena = s.arena.behind base →
      t'.arena = s'.arena.behind base) :
    Aligned w d v s' t' := by
  obtain ⟨h₁, h₂, h₃, h₄, h₅, h₆⟩ := h
  refine ⟨hs ▸ h₁, ht ▸ h₂, h₃, hs ▸ ht ▸ h₄, h₅, fun base hb => ?_⟩
  obtain ⟨hnames, harena, hextent, hprev⟩ := h₆ base hb
  exact ⟨hn hnames, ha base hb hnames harena, hextent, hs ▸ ht ▸ hprev⟩

theorem Both.step {w : Window} {s t : State} {d d' : Nat} {u v : List Token} {s₁ t₁ s₂ t₂ : State}
    {x y : List (Outline Ref)} {ts : List (Outline TokenKind)}
    (b : Both w s t d (u ++ v) s₁ t₁ x y ts) (hs : Moved u.length s₁ s₂) (ht : Moved u.length t₁ t₂)
    (hd : Closes d (u ++ v) → Closes d' v) : Both w s t d' v s₂ t₂ x y ts :=
  ⟨b.aligned.step hs ht hd, b.left.move hs.arena hs.names, b.right.move ht.arena ht.names⟩

/-- Both runs look around and stay. -/
theorem Both.stay {w : Window} {s t : State} {d : Nat} {v : List Token} {s₁ t₁ s₂ t₂ : State}
    {x y : List (Outline Ref)} {ts : List (Outline TokenKind)}
    (b : Both w s t d v s₁ t₁ x y ts) (hs : Moved 0 s₁ s₂) (ht : Moved 0 t₁ t₂) :
    Both w s t d v s₂ t₂ x y ts := b.step (u := []) hs ht id

/-! ## How two steps end -/

/-- The end of a step. -/
abbrev Outcome (α : Type) := EStateM.Result Failure State α

/-- A run that has come to the end of its tokens: it has failed, or stands at the end with a value
of which `S` holds. -/
def Stalled (S : α → Prop) : Outcome α → Prop
  | .ok a s => s.cursor.isAtEnd = true ∧ S a
  | .error _ _ => True

/-- The steps of two runs that were at `s` and `t` end alike.  `S` holds of the values with which the
left run may stop at the end of its tokens where the right run goes on. -/
inductive Meet (w : Window) (s t : State) (S : α → Prop) (Q : α → α → State → State → Prop) :
    Outcome α → Outcome α → Prop
  | ok {a b s' t'} : Q a b s' t' → Meet w s t S Q (.ok a s') (.ok b t')
  /-- Both fail, at the same place. -/
  | error {e e' s' t'} (v : List Token) : s.arena.Kept s'.arena → t.arena.Kept t'.arena →
      s'.cursor.rest = v ++ w.left → t'.cursor.rest = v ++ w.right →
      (∀ base, w.base = some base → Twins w v base s' t') →
      Meet w s t S Q (.error (.error e) s') (.error (.error e') t')
  /-- Both have passed the line break after the common tokens. -/
  | line {r r'} : w.IsLine → w.Differs → (final r).cursor.rest.length < w.left.length →
      (final r').cursor.rest.length < w.right.length → Meet w s t S Q r r'
  /-- The left run has come to its end, and the right one has passed the line break there. -/
  | ended {r r'} : w.IsEnded → (final r).cursor.rest.length ≤ w.left.length →
      (final r').cursor.rest.length < w.right.length → Stalled S r → Meet w s t S Q r r'
  /-- Both have come to a point that is the last common token. -/
  | point {r r'} : w.IsEnded → w.pointed = true → (final r).cursor.rest.length ≤ w.left.length + 1 →
      (final r').cursor.rest.length ≤ w.right.length + 1 → Meet w s t S Q r r'

/-- No value is left at the end. -/
def never (_ : α) : Prop := False

namespace Meet

variable {w : Window} {s t : State} {S : α → Prop} {Q : α → α → State → State → Prop}
  {r r' : Outcome α}

theorem mono {S' : α → Prop} {Q' : α → α → State → State → Prop} (h : Meet w s t S Q r r')
    (hs : ∀ a, S a → S' a) (hq : ∀ a b s' t', Q a b s' t' → Q' a b s' t') : Meet w s t S' Q' r r' := by
  cases h with
  | ok h => exact .ok (hq _ _ _ _ h)
  | error v h₁ h₂ h₃ h₄ h₅ => exact .error v h₁ h₂ h₃ h₄ h₅
  | line hw hd h₁ h₂ => exact .line hw hd h₁ h₂
  | point hw hp h₁ h₂ => exact .point hw hp h₁ h₂
  | ended hw h₁ h₂ h =>
    refine .ended hw h₁ h₂ ?_
    cases r with
    | ok a s' => exact ⟨h.1, hs a h.2⟩
    | error e s' => trivial

/-- The comparison may begin earlier. -/
theorem base {s₀ t₀ : State} (h : Meet w s t S Q r r') (hs : s₀.arena.Kept s.arena)
    (ht : t₀.arena.Kept t.arena) : Meet w s₀ t₀ S Q r r' := by
  cases h with
  | ok h => exact .ok h
  | error v h₁ h₂ h₃ h₄ h₅ => exact .error v (hs.trans h₁) (ht.trans h₂) h₃ h₄ h₅
  | line hw hd h₁ h₂ => exact .line hw hd h₁ h₂
  | ended hw h₁ h₂ h => exact .ended hw h₁ h₂ h
  | point hw hp h₁ h₂ => exact .point hw hp h₁ h₂

/-- Steps one after the other. -/
theorem bind {p q : Parse α} {f g : α → Parse β} [hf : ∀ a, Forward (f a)] [hg : ∀ a, Forward (g a)]
    {S' : β → Prop} {Q' : β → β → State → State → Prop} {s₁ t₁ : State}
    (h : Meet w s t S Q (p s₁) (q t₁))
    (next : ∀ a b s' t', Q a b s' t' → Meet w s t S' Q' (f a s') (g b t'))
    (stall : ∀ a s', S a → s'.cursor.isAtEnd = true → Stalled S' (f a s')) :
    Meet w s t S' Q' ((p >>= f) s₁) ((q >>= g) t₁) := by
  have onward : ∀ {k : α → Parse β} (_ : ∀ a, Forward (k a)) {r : Outcome α} {m : Parse α}
      {s₀ : State}, m s₀ = r →
      (final ((m >>= k) s₀)).cursor.rest.length ≤ (final r).cursor.rest.length := by
    intro k hk r m s₀ hr
    show (final (EStateM.bind m k s₀)).cursor.rest.length ≤ _
    unfold EStateM.bind
    rw [hr]
    cases r with
    | ok a s' => exact ((hk a).onward s').length_le
    | error e s' => exact Nat.le_refl _
  generalize hr : p s₁ = r at h
  generalize hr' : q t₁ = r' at h
  cases h with
  | ok h =>
    have := next _ _ _ _ h
    show Meet w s t S' Q' (EStateM.bind p f s₁) (EStateM.bind q g t₁)
    simpa only [EStateM.bind, hr, hr'] using this
  | error v h₁ h₂ h₃ h₄ h₅ =>
    show Meet w s t S' Q' (EStateM.bind p f s₁) (EStateM.bind q g t₁)
    simpa only [EStateM.bind, hr, hr'] using .error v h₁ h₂ h₃ h₄ h₅
  | line hw hd h₁ h₂ =>
    exact .line hw hd (Nat.lt_of_le_of_lt (onward hf hr) h₁) (Nat.lt_of_le_of_lt (onward hg hr') h₂)
  | point hw hp h₁ h₂ =>
    exact .point hw hp (Nat.le_trans (onward hf hr) h₁) (Nat.le_trans (onward hg hr') h₂)
  | ended hw h₁ h₂ h =>
    refine .ended hw (Nat.le_trans (onward hf hr) h₁) (Nat.lt_of_le_of_lt (onward hg hr') h₂) ?_
    show Stalled S' (EStateM.bind p f s₁)
    unfold EStateM.bind
    rw [hr]
    cases r with
    | ok a s' => exact stall a s' h.2 h.1
    | error e s' => trivial

/-- `bind` when the first step leaves nothing at the end. -/
theorem bind' {p q : Parse α} {f g : α → Parse β} [∀ a, Forward (f a)] [∀ a, Forward (g a)]
    {S' : β → Prop} {Q' : β → β → State → State → Prop} {s₁ t₁ : State}
    (h : Meet w s t never Q (p s₁) (q t₁))
    (next : ∀ a b s' t', Q a b s' t' → Meet w s t S' Q' (f a s') (g b t')) :
    Meet w s t S' Q' ((p >>= f) s₁) ((q >>= g) t₁) :=
  h.bind next fun _ _ h => h.elim

/-- Telling a failure what was being read does not change where it happens. -/
theorem within {p q : Parse α} {what : Construct} {s₁ t₁ : State}
    (h : Meet w s t S Q (p s₁) (q t₁)) :
    Meet w s t S Q (Parse.within what p s₁) (Parse.within what q t₁) := by
  have hfinal : ∀ (m : Parse α) (s₀ : State), final (Parse.within what m s₀) = final (m s₀) := by
    intro m s₀
    unfold Parse.within
    cases m s₀ <;> rfl
  generalize hr : p s₁ = r at h
  generalize hr' : q t₁ = r' at h
  cases h with
  | ok h => simpa only [Parse.within, hr, hr'] using .ok h
  | error v h₁ h₂ h₃ h₄ h₅ =>
    simpa only [Parse.within, hr, hr', Failure.within] using .error v h₁ h₂ h₃ h₄ h₅
  | line hw hd h₁ h₂ =>
    exact .line hw hd (by rw [hfinal, hr]; exact h₁) (by rw [hfinal, hr']; exact h₂)
  | point hw hp h₁ h₂ =>
    exact .point hw hp (by rw [hfinal, hr]; exact h₁) (by rw [hfinal, hr']; exact h₂)
  | ended hw h₁ h₂ h =>
    refine .ended hw (by rw [hfinal, hr]; exact h₁) (by rw [hfinal, hr']; exact h₂) ?_
    unfold Parse.within
    rw [hr]
    cases r with
    | ok a s' => exact h
    | error e s' => trivial

/-! ## Loops -/

/-- How one turn of a loop ends: both runs leave it, or both go on with fewer tokens before them. -/
def Turn (I : β → β → List Token → State → State → Prop) (Q : β → β → State → State → Prop)
    (v : List Token) : ForInStep β → ForInStep β → State → State → Prop
  | .done b, .done b', s, t => Q b b' s t
  | .yield b, .yield b', s, t => ∃ v', v'.length < v.length ∧ I b b' v' s t
  | _, _, _, _ => False

theorem turns {body body' : β → Parse (ForInStep β)} [∀ b, Forward (body b)] [∀ b, Forward (body' b)]
    {S : β → Prop} {T : ForInStep β → Prop} {Q : β → β → State → State → Prop}
    {I : β → β → List Token → State → State → Prop}
    (turn : ∀ b b' v s₁ t₁, I b b' v s₁ t₁ →
      Meet w s t T (Turn I Q v) (body b s₁) (body' b' t₁))
    (stallDone : ∀ b, T (.done b) → S b)
    (stallYield : ∀ b s', T (.yield b) → s'.cursor.isAtEnd = true →
      Stalled (fun step => ∃ b', step = .done b' ∧ S b') (body b s'))
    {n m : Nat} {b b' : β} {v : List Token} {s₁ t₁ : State} (inv : I b b' v s₁ t₁)
    (hn : v.length < n) (hm : v.length < m) :
    Meet w s t S Q (Parse.turns body n b s₁) (Parse.turns body' m b' t₁) := by
  induction n generalizing m b b' v s₁ t₁ with
  | zero => omega
  | succ n ih =>
    obtain _ | m := m
    · omega
    have hf := Has.afterTurn fun b => (inferInstance : Has @Forward (Parse.turns body n b))
    have hg := Has.afterTurn fun b => (inferInstance : Has @Forward (Parse.turns body' m b))
    unfold Parse.turns
    refine (turn b b' v s₁ t₁ inv).bind ?_ ?_
    · rintro (c | c) (c' | c') s₂ t₂ h
      · exact .ok h
      · exact h.elim
      · exact h.elim
      · obtain ⟨v', hlt, hinv⟩ := h
        exact ih hinv (by omega) (by omega)
    · rintro (c | c) s' hs hend
      · exact ⟨hend, stallDone c hs⟩
      · -- the run stands at the end: it leaves the loop at its next turn, or fails
        have next := stallYield c s' hs hend
        show Stalled S (Parse.turns body n c s')
        obtain _ | n := n
        · trivial
        unfold Parse.turns
        show Stalled S (EStateM.bind (body c) _ s')
        unfold EStateM.bind
        generalize body c s' = r at next
        cases r with
        | ok step s'' =>
          obtain ⟨hend', c', rfl, hc'⟩ := next
          exact ⟨hend', hc'⟩
        | error e s'' => trivial

end Meet

theorem Aligned.length_lt_bound {w : Window} {d : Nat} {v : List Token} {s t : State}
    (h : Aligned w d v s t) : v.length < s.bound ∧ v.length < t.bound := by
  have hs := congrArg List.length h.left
  have ht := congrArg List.length h.right
  simp only [Cursor.rest, List.length_drop, List.length_append, TokenList.toList, Array.length_toList] at hs ht
  simp only [State.bound, TokenList.size]
  omega

namespace Meet

variable {w : Window} {s t : State}

/-- A loop ends alike in both runs if every turn does. -/
theorem repeating {body body' : β → Parse (ForInStep β)} [∀ b, Forward (body b)]
    [∀ b, Forward (body' b)] {S : β → Prop} {T : ForInStep β → Prop}
    {Q : β → β → State → State → Prop} {I : β → β → List Token → State → State → Prop}
    (turn : ∀ b b' v s₁ t₁, I b b' v s₁ t₁ →
      Meet w s t T (Turn I Q v) (body b s₁) (body' b' t₁))
    (stallDone : ∀ b, T (.done b) → S b)
    (stallYield : ∀ b s', T (.yield b) → s'.cursor.isAtEnd = true →
      Stalled (fun step => ∃ b', step = .done b' ∧ S b') (body b s'))
    {d : Nat} {b b' : β} {v : List Token} {s₁ t₁ : State} (al : Aligned w d v s₁ t₁)
    (inv : I b b' v s₁ t₁) :
    Meet w s t S Q (Parse.repeating body b s₁) (Parse.repeating body' b' t₁) :=
  turns turn stallDone stallYield inv al.length_lt_bound.1 al.length_lt_bound.2

/-- A loop whose turns leave nothing at the end. -/
theorem repeating' {body body' : β → Parse (ForInStep β)} [∀ b, Forward (body b)]
    [∀ b, Forward (body' b)] {Q : β → β → State → State → Prop}
    {I : β → β → List Token → State → State → Prop}
    (turn : ∀ b b' v s₁ t₁, I b b' v s₁ t₁ →
      Meet w s t never (Turn I Q v) (body b s₁) (body' b' t₁))
    {d : Nat} {b b' : β} {v : List Token} {s₁ t₁ : State} (al : Aligned w d v s₁ t₁)
    (inv : I b b' v s₁ t₁) :
    Meet w s t never Q (Parse.repeating body b s₁) (Parse.repeating body' b' t₁) :=
  repeating turn (fun _ h => h) (fun _ _ h => h.elim) al inv

end Meet

end SolSyntax.Grammar
