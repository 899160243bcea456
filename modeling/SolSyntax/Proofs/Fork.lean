import SolSyntax.Proofs.AskingDecls
import SolSyntax.Proofs.Scans
import SolSyntax.Proofs.Softening

/-!
# Two token lists with a common front

A `Fork` is two token lists that are the same up to an index, such that what stands there on the right may
stand instead of what does on the left.  Two parses of them do the same up to the index, unless lookahead sees
the tag that is there on the right.  There the left one may fail to find what it asks for; if the right one has a
token of that kind, it finds it and gets past the index.  So `Fork.Meets` relates the ends of two steps: either
the left one is of no further interest, or the right one is past the index, or both go on from states that are
alike, or the left one has gone astray, and will come to nothing.

`Fork.Sides w p q` says so of two steps; it is closed under everything productions are built with.

Principal results: `Meets.bind_stop` — one step after another; `Sides` instances for what productions are built
with.
-/

namespace SolSyntax

/-- A cursor at an index that has missed nothing. -/
def Cursor.atIndex (ts : TokenList) (i : Nat) : Cursor := ⟨ts, i, i, .empty⟩

open Grammar

/-- Parentheses around an index, which only a colon that does not come before it shows to be parameters. -/
structure LateParams (ts : TokenList) (i j : Nat) : Prop where
  opens : ts.tagAt j = .lparen
  before : j < i
  closes : Closes 0 (ts.slice (j + 1) i)
  params : holdsParams (ts.toList.drop j) = true
  quote : ts.tagAt (j + 1) ≠ .quote
  colon : occursIn .colon (ts.slice (j + 1) i) 0 = false

/-- Two token lists that are the same up to an index. -/
structure Fork where
  left : TokenList
  right : TokenList
  index : Nat
  inside : index < left.size
  same : ∀ j < index, right.get? j = left.get? j
  /-- The tokens at the index are as close to those before them. -/
  spans : (right.get? index).map Token.span = (left.get? index).map Token.span
  /-- No scan sees more than the tag on the right. -/
  ahead : Instead (right.tagAt index) (left.toList.drop index) (right.toList.drop index)
  /-- A fat arrow does not come anew behind a square bracket. -/
  common : right.tagAt index = .fatArrow → ∀ j, j + 1 = index → left.tagAt j = .rbracket →
    left.tagAt index = .fatArrow
  /-- A point on the right alone stands between spaces. -/
  spaced : right.tagAt index = .dot → left.tagAt index ≠ .dot → isTightDot (.atIndex right index) = false

/-- An error is a complaint about a token with a given tag. -/
def SyntaxError.Says (e : SyntaxError) (c : Complaint) (found : Tag) : Prop :=
  e.code = c.code ∧ e.message = c.message found.name

/-- A complaint is about the token at the cursor. -/
theorem says_complain (c : Cursor) (complaint : Complaint) : (c.complain complaint).Says complaint c.currentTag :=
  ⟨rfl, by rw [currentTag_eq_tag]; rfl⟩

/-- What may stand before a visibility. -/
def beforeVisibility : TagSet :=
  .ofList [.docString, .atSign, .kwPublic, .kwSealed, .kwPrivate, .kwInternal]

/-- A token with a tag is refused at an index, although one with that tag was asked for there: the error, and where
the cursor is then. -/
inductive Refused (ts : TokenList) (i : Nat) (g : Tag) (e : SyntaxError) (p : Nat) : Prop
  /-- A visibility, and behind it what may only stand before it. -/
  | visibility {j} : p = i → e.Says .expectedDeclaration g → j + 1 = i → (ts.tagAt j).isVisibility = true →
      beforeVisibility.contains g = true → Refused ts i g e p
  /-- The end of a block behind an `if` without `else`. -/
  | openIf : p = i → e.Says .lastWithoutElse g → g = .rbrace → ts.tagAt i ≠ .rbrace → Refused ts i g e p
  /-- The end of the parameters of a lambda before the first one. -/
  | noParam {j} : p = i → e.Says .noLambdaParam g → j + 1 = i → ts.tagAt j = .pipe → g = .pipe →
      ts.tagAt i ≠ .pipe → Refused ts i g e p
  /-- A bracket that makes an expression of parameters, in which there is a quote before the index. -/
  | quote {j} : p < i → e.Says .expectedExpression .quote → LateParams ts i j → j < p → ts.tagAt p = .quote →
      g.isClosing = true → Refused ts i g e p

namespace Fork

/-- The tag that the left list has at the index. -/
def found (w : Fork) : Tag := w.left.tagAt w.index

/-- The tag that the right list has there. -/
def tag (w : Fork) : Tag := w.right.tagAt w.index

/-- The place where the left list may lack that tag. -/
def spot (w : Fork) : Spot := ⟨w.left, w.index, w.tag⟩

/-- The tag that the right list has there is refused. -/
abbrev Refuses (w : Fork) (e : SyntaxError) (p : Nat) : Prop := Refused w.left w.index w.tag e p

variable {w : Fork} {s t u v : State}

theorem tagAt_eq (w : Fork) {j : Nat} (h : j < w.index) : w.right.tagAt j = w.left.tagAt j := by
  have := w.same j h
  rw [TokenList.get?, TokenList.get?] at this
  rw [TokenList.tagAt, TokenList.tagAt, this]

theorem lt_size_iff (w : Fork) {j : Nat} (h : j < w.index) : j < w.right.size ↔ j < w.left.size := by
  have hnone : w.right.tokens[j]? = none ↔ w.left.tokens[j]? = none := Eq.congr_left (w.same j h)
  rw [Array.getElem?_eq_none_iff, Array.getElem?_eq_none_iff] at hnone
  rw [TokenList.size, TokenList.size]
  omega

/-! ## Two states -/

/-- Two states at the same place, not past the index.  What the left one has asked for and missed at the
index is not the tag that is there on the right. -/
structure Paired (w : Fork) (s t : State) : Prop where
  left : s.cursor.tokens = w.left
  right : t.cursor.tokens = w.right
  position : t.cursor.position = s.cursor.position
  le : s.cursor.position ≤ w.index
  probed : s.cursor.probedAt ≤ s.cursor.position
  fresh : s.cursor.position = w.index → s.cursor.expectedHere.contains w.tag = false
  gists : Softens s.arena.gists t.arena.gists

namespace Paired

variable (h : w.Paired s t)
include h

theorem current (hlt : s.cursor.position < w.index) : t.cursor.current = s.cursor.current := by
  rw [Cursor.current, Cursor.current, h.left, h.right, h.position, w.same _ hlt]

theorem currentTag (hlt : s.cursor.position < w.index) : t.cursor.currentTag = s.cursor.currentTag := by
  rw [Cursor.currentTag, Cursor.currentTag, Cursor.tagAt, Cursor.tagAt, h.left, h.right, h.position,
    w.tagAt_eq hlt]

theorem currentTag_right (heq : s.cursor.position = w.index) : t.cursor.currentTag = w.tag := by
  rw [Cursor.currentTag, Cursor.tagAt, h.right, h.position, heq, tag]

theorem currentTag_left (heq : s.cursor.position = w.index) : s.cursor.currentTag = w.found := by
  rw [Cursor.currentTag, Cursor.tagAt, h.left, heq, found]

/-- What the left one asks for can be told from what is open where it stands. -/
theorem rests {l : Option Nat} (hlevel : w.spot.Level l s.cursor.position) : w.spot.Rests l s :=
  ⟨h.left, h.probed, hlevel, h.fresh⟩

/-- Both miss something, the left one something else than the tag at the index. -/
theorem note {set set' : TagSet} (hset : s.cursor.position = w.index → set.contains w.tag = false) :
    w.Paired (s.noted set) (t.noted set') where
  left := h.left
  right := h.right
  position := h.position
  le := h.le
  probed := Nat.le_refl _
  fresh heq := by
    show (s.cursor.note set).expectedHere.contains w.tag = false
    rw [Cursor.expectedHere_note, TagSet.contains_union, h.fresh heq, hset heq]
    rfl
  gists := h.gists

/-- Both move on to the same place. -/
theorem move {i : Nat} (hi : s.cursor.position ≤ i) (hle : i ≤ w.index) :
    w.Paired (s.moved i) (t.moved i) where
  left := h.left
  right := h.right
  position := rfl
  le := hle
  probed := Nat.le_trans h.probed hi
  fresh heq := by
    -- nothing has been asked for yet at a new place
    rcases Nat.lt_or_eq_of_le hi with hlt | rfl
    · have hprobed := h.probed
      rw [Cursor.expectedHere_of_moved (show s.cursor.probedAt ≠ i by omega), TagSet.contains_empty]
    · exact h.fresh heq
  gists := h.gists

/-- New nodes. -/
theorem arena {a b : Arena} (hgists : Softens a.gists b.gists) (names names' : Interner) :
    w.Paired ⟨s.cursor, a, names⟩ ⟨t.cursor, b, names'⟩ :=
  ⟨h.left, h.right, h.position, h.le, h.probed, h.fresh, hgists⟩

/-- New names. -/
theorem names {s' t' : State} (hs : s'.cursor = s.cursor ∧ s'.arena = s.arena)
    (ht : t'.cursor = t.cursor ∧ t'.arena = t.arena) : w.Paired s' t' := by
  obtain ⟨_, _, _⟩ := s'
  obtain ⟨_, _, _⟩ := t'
  obtain ⟨rfl, rfl⟩ := hs
  obtain ⟨rfl, rfl⟩ := ht
  exact h.arena h.gists _ _

/-- The left one misses something else than the tag at the index. -/
theorem note_left {set : TagSet} (hset : s.cursor.position = w.index → set.contains w.tag = false) :
    w.Paired (s.noted set) t :=
  have noted : w.Paired (s.noted set) (t.noted set) := h.note hset
  ⟨h.left, h.right, h.position, h.le, noted.probed, noted.fresh, h.gists⟩

/-- What the right one misses does not matter. -/
theorem note_right (set : TagSet) : w.Paired s (t.noted set) :=
  ⟨h.left, h.right, h.position, h.le, h.probed, h.fresh, h.gists⟩

end Paired

/-! ## Two results -/

/-- The left run is of no further interest: it is past the index, or it has failed before the index or
without asking for the tag that the right list has there. -/
def Quits (w : Fork) : EStateM.Result Failure State α → Prop
  | .ok _ s => w.index < s.cursor.position
  | .error (.error e) s => s.cursor.position = w.index → e.expected.contains w.tag = false
  | .error .exhausted _ => True

/-- The right run is past the index, or has been refused. -/
def Gone (w : Fork) : EStateM.Result Failure State α → Prop
  | .ok _ t => w.index < t.cursor.position
  | .error (.error e) t => w.index < t.cursor.position ∨ w.Refuses e t.cursor.position
  | .error .exhausted _ => True

/-- Where one run may end alone: at the index, before some tags there, or where the left one has gone astray. -/
structure Stops where
  tags : TagSet
  astray : State → Prop

namespace Stops

def none : Stops := ⟨.empty, fun _ => False⟩

/-- Before some tags. -/
abbrev before (tags : TagSet) : Stops := ⟨tags, fun _ => False⟩

/-- Where the left run has gone astray. -/
def straying (astray : State → Prop) : Stops := ⟨.empty, astray⟩

end Stops

/-- How two runs from paired states end.  One that ends at the index with a stop there may have done so alone;
then it is paired with the state that the other one was in before it went on. -/
inductive Meets (w : Fork) (stops : Stops) (X : α → β → State → State → Prop)
    (r : EStateM.Result Failure State α) (r' : EStateM.Result Failure State β) : Prop
  | quits : w.Quits r → Meets w stops X r r'
  | gone : w.Gone r' → Meets w stops X r r'
  | both {a b s t} : r = .ok a s → r' = .ok b t → w.Paired s t → X a b s t → Meets w stops X r r'
  | left {a b s t} : r = .ok a s → w.Paired s t → X a b s t → s.cursor.position = w.index →
      stops.tags.contains w.found = true → Meets w stops X r r'
  | right {a b s t} : r' = .ok b t → w.Paired s t → X a b s t → s.cursor.position = w.index →
      stops.tags.contains w.tag = true → stops.tags.contains w.found = false → Meets w stops X r r'
  | astray {a s} : r = .ok a s → stops.astray s → Meets w stops X r r'

/-- Results that steer the parse the same way. -/
def SameWay [Steers α] (a b : α) (_ _ : State) : Prop := Alike a b

section Results

variable {α' β' : Type} {r : EStateM.Result Failure State α} {r' : EStateM.Result Failure State α'} {p : Parse α}
  {q : Parse α'} {f : α → Parse β} {g : α' → Parse β'} {stops stops' : Stops}
  {X X' : α → α' → State → State → Prop} {Y : β → β' → State → State → Prop}

theorem Quits.of_past (h : w.index < (final r).cursor.position) : w.Quits r := by
  cases r with
  | ok a s => exact h
  | error e s =>
    cases e with
    | error e => exact fun heq => absurd heq (Nat.ne_of_gt h)
    | exhausted => trivial

theorem Gone.of_past (h : w.index < (final r).cursor.position) : w.Gone r := by
  cases r with
  | ok a s => exact h
  | error e s =>
    cases e with
    | error e => exact .inl h
    | exhausted => trivial

theorem Quits.of_entered (h : Entered s r) (hle : w.index ≤ s.cursor.position) : w.Quits r := by
  obtain h | ⟨t, rfl⟩ := h
  · exact .of_past (Nat.lt_of_le_of_lt hle h)
  · trivial

theorem Gone.of_entered (h : Entered s r) (hle : w.index ≤ s.cursor.position) : w.Gone r := by
  obtain h | ⟨t, rfl⟩ := h
  · exact .of_past (Nat.lt_of_le_of_lt hle h)
  · trivial

theorem Quits.bind [hf : ∀ a, Forward (f a)] (h : w.Quits (p s)) : w.Quits ((p >>= f) s) := by
  cases e : p s with
  | ok a t =>
    rw [e] at h
    rw [bind_of_ok e]
    exact .of_past (Nat.lt_of_lt_of_le h ((hf a).onward t).cursor.position)
  | error x t =>
    rw [e] at h
    rw [bind_of_error e]
    cases x <;> exact h

theorem Gone.bind [hf : ∀ a, Forward (f a)] (h : w.Gone (p s)) : w.Gone ((p >>= f) s) := by
  cases e : p s with
  | ok a t =>
    rw [e] at h
    rw [bind_of_ok e]
    exact .of_past (Nat.lt_of_lt_of_le h ((hf a).onward t).cursor.position)
  | error x t =>
    rw [e] at h
    rw [bind_of_error e]
    cases x <;> exact h

theorem Quits.within (h : w.Quits (p s)) (what : Construct) : w.Quits (Parse.within what p s) := by
  unfold Parse.within
  cases e : p s with
  | ok a t => rwa [e] at h
  | error x t =>
    rw [e] at h
    cases x <;> exact h

/-- A run without complaint that ends past the index, or not at all, is of no further interest. -/
theorem Quits.of_hushed (h : w.spot.Hushed r) (hok : ∀ a s', r = .ok a s' → w.index < s'.cursor.position) :
    w.Quits r := by
  cases r with
  | ok a s' => exact hok a s' rfl
  | error e s' => cases e <;> exact h

/-- The left run goes on alone: it quits, or ends where it has gone astray. -/
def Wanders (w : Fork) (P : State → Prop) (r : EStateM.Result Failure State α) : Prop :=
  w.Quits r ∨ ∃ a s, r = .ok a s ∧ P s

theorem Wanders.bind {P P' : State → Prop} [∀ a, Forward (f a)] (h : w.Wanders P (p s))
    (hf : ∀ a s', P s' → w.Wanders P' (f a s')) : w.Wanders P' ((p >>= f) s) := by
  obtain h | ⟨a, s', hs, h⟩ := h
  · exact .inl h.bind
  · rw [bind_of_ok hs]
    exact hf a s' h

theorem Wanders.meets (h : w.Wanders stops.astray r) : w.Meets stops X r r' := by
  obtain h | ⟨a, s, hs, h⟩ := h
  · exact .quits h
  · exact .astray hs h

theorem Refuses.within {e : SyntaxError} {p : Nat} (h : w.Refuses e p) (context : String) :
    w.Refuses (e.within context) p := by
  cases h with
  | visibility hp hsays hj hv htag => exact .visibility hp hsays hj hv htag
  | openIf hp hsays htag hne => exact .openIf hp hsays htag hne
  | noParam hp hsays hj hpipe htag hne => exact .noParam hp hsays hj hpipe htag hne
  | quote hlt hsays late hj hquote hclosing => exact .quote hlt hsays late hj hquote hclosing

theorem Gone.within (h : w.Gone (p s)) (what : Construct) : w.Gone (Parse.within what p s) := by
  unfold Parse.within
  cases e : p s with
  | ok a t => rwa [e] at h
  | error x t =>
    rw [e] at h
    cases x with
    | error x => exact h.imp_right fun h => Refuses.within h _
    | exhausted => trivial

namespace Meets

theorem within (h : w.Meets stops X (p s) (q t)) (what : Construct) :
    w.Meets stops X (Parse.within what p s) (Parse.within what q t) := by
  have hok {γ : Type} {p : Parse γ} {s a s'} (h : p s = .ok a s') : Parse.within what p s = .ok a s' := by
    rw [Parse.within, h]
  cases h with
  | quits h => exact .quits (h.within what)
  | gone h => exact .gone (h.within what)
  | both hs ht paired hX => exact .both (hok hs) (hok ht) paired hX
  | left hs paired hX heq hstop => exact .left (hok hs) paired hX heq hstop
  | right ht paired hX heq hstop hne => exact .right (hok ht) paired hX heq hstop hne
  | astray hs h => exact .astray (hok hs) h

/-- One step after another, where the first may end at a stop. -/
theorem bind_stop [∀ a, Forward (f a)] [∀ b, Forward (g b)] (h : w.Meets stops X (p s) (q t))
    (hboth : ∀ a b s' t', w.Paired s' t' → X a b s' t' → w.Meets stops' Y (f a s') (g b t'))
    (hleft : ∀ a b s' t', w.Paired s' t' → X a b s' t' → s'.cursor.position = w.index →
      stops.tags.contains w.found = true → w.Quits (f a s'))
    (hright : ∀ a b s' t', w.Paired s' t' → X a b s' t' → s'.cursor.position = w.index →
      stops.tags.contains w.tag = true → stops.tags.contains w.found = false → w.Gone (g b t'))
    (hastray : ∀ a s', stops.astray s' → w.Wanders stops'.astray (f a s')) :
    w.Meets stops' Y ((p >>= f) s) ((q >>= g) t) := by
  cases h with
  | quits h => exact .quits h.bind
  | gone h => exact .gone h.bind
  | both hs ht paired hX =>
    rw [bind_of_ok hs, bind_of_ok ht]
    exact hboth _ _ _ _ paired hX
  | left hs paired hX heq hstop =>
    rw [bind_of_ok hs]
    exact .quits (hleft _ _ _ _ paired hX heq hstop)
  | right ht paired hX heq hstop hne =>
    rw [bind_of_ok ht]
    exact .gone (hright _ _ _ _ paired hX heq hstop hne)
  | astray hs h =>
    rw [bind_of_ok hs]
    exact (hastray _ _ h).meets

/-- What comes next leaves both runs where they are. -/
theorem follow [∀ a, Forward (f a)] [∀ b, Forward (g b)] (h : w.Meets stops X (p s) (q t))
    (hf : ∀ a s', ∃ c, f a s' = .ok c s')
    (hfg : ∀ a b s' t', w.Paired s' t' → X a b s' t' →
      ∃ c d, f a s' = .ok c s' ∧ g b t' = .ok d t' ∧ Y c d s' t') :
    w.Meets stops Y ((p >>= f) s) ((q >>= g) t) := by
  cases h with
  | quits h => exact .quits h.bind
  | gone h => exact .gone h.bind
  | both hs ht paired hX =>
    obtain ⟨_, _, hf, hg, hY⟩ := hfg _ _ _ _ paired hX
    exact .both ((bind_of_ok hs).trans hf) ((bind_of_ok ht).trans hg) paired hY
  | left hs paired hX heq hstop =>
    obtain ⟨_, _, hf, hg, hY⟩ := hfg _ _ _ _ paired hX
    exact .left ((bind_of_ok hs).trans hf) paired hY heq hstop
  | right ht paired hX heq hstop hne =>
    obtain ⟨_, _, hf, hg, hY⟩ := hfg _ _ _ _ paired hX
    exact .right ((bind_of_ok ht).trans hg) paired hY heq hstop hne
  | astray hs h =>
    obtain ⟨_, hf⟩ := hf _ _
    exact .astray ((bind_of_ok hs).trans hf) h

/-- With no stops neither run ends alone. -/
theorem cases_none (h : w.Meets .none X r r') :
    w.Quits r ∨ w.Gone r' ∨ ∃ a b s t, r = .ok a s ∧ r' = .ok b t ∧ w.Paired s t ∧ X a b s t := by
  cases h with
  | quits h => exact .inl h
  | gone h => exact .inr (.inl h)
  | both hs ht paired h => exact .inr (.inr ⟨_, _, _, _, hs, ht, paired, h⟩)
  | left _ _ _ _ h => exact absurd h (by rw [Stops.none, TagSet.contains_empty]; exact Bool.false_ne_true)
  | right _ _ _ _ h => exact absurd h (by rw [Stops.none, TagSet.contains_empty]; exact Bool.false_ne_true)
  | astray _ h => exact h.elim

/-- One step after another. -/
theorem bind [∀ a, Forward (f a)] [∀ b, Forward (g b)] (h : w.Meets .none X (p s) (q t))
    (hfg : ∀ a b s' t', w.Paired s' t' → X a b s' t' → w.Meets stops Y (f a s') (g b t')) :
    w.Meets stops Y ((p >>= f) s) ((q >>= g) t) := by
  obtain h | h | ⟨a, b, s', t', hs, ht, paired, h⟩ := h.cases_none
  · exact .quits h.bind
  · exact .gone h.bind
  · rw [bind_of_ok hs, bind_of_ok ht]
    exact hfg _ _ _ _ paired h

/-- What the results have in common can be told from how they came about. -/
theorem mono (h : w.Meets .none X r r')
    (hX : ∀ a b s t, r = .ok a s → r' = .ok b t → w.Paired s t → X a b s t → X' a b s t) :
    w.Meets stops X' r r' := by
  obtain h | h | ⟨a, b, s, t, hs, ht, paired, h⟩ := h.cases_none
  · exact .quits h
  · exact .gone h
  · exact .both hs ht paired (hX _ _ _ _ hs ht paired h)

theorem imp (h : w.Meets stops X r r') (hX : ∀ a b s t, X a b s t → X' a b s t) : w.Meets stops X' r r' := by
  cases h with
  | quits h => exact .quits h
  | gone h => exact .gone h
  | both hs ht paired h => exact .both hs ht paired (hX _ _ _ _ h)
  | left hs paired h heq hstop => exact .left hs paired (hX _ _ _ _ h) heq hstop
  | right ht paired h heq hstop hne => exact .right ht paired (hX _ _ _ _ h) heq hstop hne
  | astray hs h => exact .astray hs h

/-- With no tags to stop before, only the left one ends alone. -/
theorem cases_straying {A : State → Prop} (h : w.Meets (.straying A) X r r') :
    w.Meets .none X r r' ∨ ∃ a s, r = .ok a s ∧ A s := by
  cases h with
  | quits h => exact .inl (.quits h)
  | gone h => exact .inl (.gone h)
  | both hs ht paired h => exact .inl (.both hs ht paired h)
  | left _ _ _ _ h => exact absurd h (by rw [Stops.straying, TagSet.contains_empty]; exact Bool.false_ne_true)
  | right _ _ _ _ h => exact absurd h (by rw [Stops.straying, TagSet.contains_empty]; exact Bool.false_ne_true)
  | astray hs h => exact .inr ⟨_, _, hs, h⟩

/-- What the results have in common, if the left run has not gone astray. -/
theorem mono_astray {A : State → Prop} (h : w.Meets (.straying A) X r r')
    (hX : ∀ a b s t, r = .ok a s → r' = .ok b t → w.Paired s t → X a b s t → X' a b s t) :
    w.Meets (.straying A) X' r r' := by
  obtain h | ⟨a, s, hs, hA⟩ := h.cases_straying
  · exact h.mono hX
  · exact .astray hs hA

/-- One step after another, where the left run may have gone astray in the first. -/
theorem bind_astray {A : State → Prop} [∀ a, Forward (f a)] [∀ b, Forward (g b)]
    (h : w.Meets (.straying A) X (p s) (q t))
    (hboth : ∀ a b s' t', w.Paired s' t' → X a b s' t' → w.Meets stops' Y (f a s') (g b t'))
    (hastray : ∀ a s', A s' → w.Wanders stops'.astray (f a s')) : w.Meets stops' Y ((p >>= f) s) ((q >>= g) t) := by
  obtain h | ⟨a, s', hs, hA⟩ := h.cases_straying
  · exact h.bind hboth
  · rw [bind_of_ok hs]
    exact (hastray a s' hA).meets

/-- No stop is asked for. -/
theorem of_none (h : w.Meets .none X r r') : w.Meets stops X r r' := h.mono fun _ _ _ _ _ _ _ hX => hX

end Meets

end Results

/-! ## Two steps -/

/-- Two steps that meet from any paired states, if not at a stop. -/
class Ends (w : Fork) (stops : Stops) [Steers α] (p q : Parse α) : Prop where
  meets : ∀ s t, w.Paired s t → w.Meets stops SameWay (p s) (q t)

/-- Two steps that meet from any paired states. -/
abbrev Sides (w : Fork) [Steers α] (p q : Parse α) : Prop := Ends w .none p q

open Parse

namespace Sides

variable {stops : Stops} [Steers α] [Steers β] {p q : Parse α} {f g : α → Parse β}

/-- Both succeed where they are. -/
theorem of_ok (h : ∀ s t, w.Paired s t →
    ∃ a b s' t', p s = .ok a s' ∧ q t = .ok b t' ∧ w.Paired s' t' ∧ Alike a b) : Ends w stops p q := by
  refine ⟨fun s t paired => ?_⟩
  obtain ⟨_, _, _, _, hs, ht, paired', alike⟩ := h s t paired
  exact .both hs ht paired' alike

theorem bind [h : Sides w p q] [∀ a, Forward (f a)] [∀ b, Forward (g b)]
    (hfg : ∀ a b, Alike a b → Ends w stops (f a) (g b)) : Ends w stops (p >>= f) (q >>= g) :=
  ⟨fun s t paired => (h.meets s t paired).bind fun a b s' t' paired' hab => (hfg a b hab).meets s' t' paired'⟩

instance {a b : α} [h : Alike a b] : Ends w stops (pure a : Parse α) (pure b) :=
  of_ok fun s t paired => ⟨a, b, s, t, rfl, rfl, paired, h⟩

/-- The results are the same, -/
instance [Steers.Exact α] [Sides w p q] [∀ a, Forward (f a)] [∀ b, Forward (g b)]
    [hfg : ∀ a, Ends w stops (f a) (g a)] : Ends w stops (p >>= f) (q >>= g) :=
  bind fun a _ hab => hab.eq ▸ hfg a

/-- or it does not matter what they are. -/
instance (priority := low) [Sides w p q] [∀ a, Forward (f a)] [∀ b, Forward (g b)]
    [hfg : ∀ a b, Ends w stops (f a) (g b)] : Ends w stops (p >>= f) (q >>= g) :=
  bind fun a b _ => hfg a b

instance {c : Bool} {p' q' : Parse α} [Ends w stops p q] [Ends w stops p' q'] :
    Ends w stops (if c = true then p else p') (if c = true then q else q') := by
  split <;> infer_instance

/-- A complaint lists what was asked for before. -/
instance (c c' : Complaint) : Ends w stops (fail c : Parse α) (fail c') :=
  ⟨fun _ _ paired => .quits paired.fresh⟩

instance [h : Ends w stops p q] (what : Construct) : Ends w stops (within what p) (within what q) :=
  ⟨fun s t paired => (h.meets s t paired).within what⟩

/-- The bounds need not be the same, as a run that reaches its bound is over. -/
instance {p q : Nat → Parse α} [h : ∀ n m, Ends w stops (p n) (q m)] : Ends w stops (bounded p) (bounded q) :=
  ⟨fun s t => (h s.bound t.bound).meets s t⟩

end Sides

end Fork

end SolSyntax
