import SolSyntax.Proofs.Entering
import SolSyntax.Proofs.Matching

/-!
# What is asked for at a level

A production asks for some tags in the brackets that it opens itself, and for others beside them.  A `Spot`
is an index in a token list, and a tag.  `Spot.Level` says how many brackets a run has yet to close when
it gets to the index: if none, then nothing that it asks for there is asked for in brackets of its own.

`Calm p avoid q` says that `q` passes properly bracketed tokens, outside of whose brackets there is none of
`avoid`, and that at the index it asks for none of `avoid` unless in brackets of its own.  Two tags are asked
for at no level: an end, and a fat arrow behind a square bracket.

Principal results: `CalmFrom.bind` — one step after another; the instances of `Calm` for what productions are
built with.
-/

-- instances are long terms, as productions have many steps
set_option synthInstance.maxSize 2000

namespace SolSyntax

/-! ## Tokens between two indices -/

namespace TokenList

variable {ts : TokenList} {i j k : Nat}

theorem slice_self (ts : TokenList) (i : Nat) : ts.slice i i = [] := by rw [slice, Nat.sub_self, List.take_zero]

theorem slice_append (hij : i ≤ j) (hjk : j ≤ k) : ts.slice i j ++ ts.slice j k = ts.slice i k := by
  have hdrop : ts.toList.drop j = (ts.toList.drop i).drop (j - i) := by
    rw [List.drop_drop, Nat.add_sub_cancel' hij]
  rw [slice, slice, slice, hdrop, ← List.take_add]
  congr 1
  omega

theorem lt_size_of_tagAt (h : ts.tagAt i ≠ .eof) : i < ts.size := by
  refine Nat.lt_of_not_le fun hle => h (tagAt_of_size_le hle)

/-- The first token, and those behind it. -/
theorem slice_cons (h : ts.tagAt i ≠ .eof) (hik : i < k) :
    ∃ t, t.tag = ts.tagAt i ∧ ts.slice i k = t :: ts.slice (i + 1) k :=
  take_drop_eq_cons hik (lt_size_of_tagAt h)

end TokenList

/-! ## Sets of tags -/

/-- A set with none of some tags, an end or a fat arrow in it. -/
class TagSet.Beside (avoid : List Tag) (set : TagSet) : Prop where
  lacks : ∀ tag ∈ .eof :: .fatArrow :: avoid, set.contains tag = false

/-- A set of tags that are no brackets. -/
class TagSet.Plain (set : TagSet) : Prop where
  isPlain : ∀ tag, set.contains tag = true → tag.isPlain = true

/-- What stands outside of brackets in no expression. -/
def outside : List Tag := [.colon, .eq, .quote]

/-- Some of it. -/
class OfOutside (avoid : List Tag) : Prop where
  mem : ∀ tag ∈ avoid, tag ∈ outside

instance : OfOutside [] := ⟨nofun⟩
instance : OfOutside outside := ⟨fun _ h => h⟩
instance : OfOutside [.eq] := ⟨by decide⟩

namespace TagSet

variable {avoid : List Tag} {set : TagSet} {tag : Tag}

theorem Beside.not_mem [h : Beside avoid set] (htag : set.contains tag = true) : tag ∉ avoid := by
  intro hmem
  rw [h.lacks tag (List.mem_cons_of_mem _ (List.mem_cons_of_mem _ hmem))] at htag
  cases htag

theorem Beside.of_mem [h : Beside avoid set] (htag : set.contains tag = true) : Beside avoid (.single tag) := by
  refine ⟨fun t ht => contains_single_of_ne ?_⟩
  rintro rfl
  rw [h.lacks t ht] at htag
  cases htag

theorem Plain.single (h : tag.isPlain = true) : Plain (.single tag) := by
  refine ⟨fun t ht => ?_⟩
  rwa [eq_of_contains_single ht]

instance : Plain .binaryOperator := ⟨by intro tag; cases tag <;> decide⟩
instance : Plain (.single .newline) := .single rfl
instance : Plain (.single .comma) := .single rfl
instance : Plain (.single .colon) := .single rfl
instance : Plain (.single .eq) := .single rfl
instance : Plain (.single .quote) := .single rfl
instance : Plain (.single .arrow) := .single rfl
instance : Plain (.single .fatArrow) := .single rfl
instance : Plain (.single .pipe) := .single rfl
instance : Plain (.single .dot) := .single rfl
instance : Plain (.single .dotDot) := .single rfl
instance : Plain (.single .caret) := .single rfl
instance : Plain (.single .kwIs) := .single rfl
instance : Plain (.single .kwIf) := .single rfl
instance : Plain (.single .kwThen) := .single rfl
instance : Plain (.single .kwElse) := .single rfl
instance : Plain (.single .kwMatch) := .single rfl
instance : Plain (.single .kwReturn) := .single rfl
instance : Plain (.single .kwUniverse) := .single rfl
instance : Plain (.single .kwLet) := .single rfl

section Outside

variable [h : OfOutside avoid]

/-- What is asked for in expressions. -/
theorem Beside.of_outside (hset : Beside outside set) : Beside avoid set := by
  refine ⟨fun t ht => hset.lacks t ?_⟩
  simp only [List.mem_cons] at ht ⊢
  exact ht.imp_right fun ht => ht.imp_right fun ht => by simpa [outside] using h.mem t ht

instance : Beside avoid .identStart := .of_outside ⟨by decide⟩
instance : Beside avoid .patternStart := .of_outside ⟨by decide⟩
instance : Beside avoid .argStart := .of_outside ⟨by decide⟩
instance : Beside avoid .primaryStart := .of_outside ⟨by decide⟩
instance : Beside avoid .exprStart := .of_outside ⟨by decide⟩
instance : Beside avoid .binaryOperator := .of_outside ⟨by decide⟩
instance : Beside avoid .paramListStart := .of_outside ⟨by decide⟩
instance : Beside avoid (.ofList [.comma, .newline]) := .of_outside ⟨by decide⟩
instance : Beside avoid (.single .newline) := .of_outside ⟨by decide⟩
instance : Beside avoid (.single .comma) := .of_outside ⟨by decide⟩
instance : Beside avoid (.single .arrow) := .of_outside ⟨by decide⟩
instance : Beside avoid (.single .pipe) := .of_outside ⟨by decide⟩
instance : Beside avoid (.single .dot) := .of_outside ⟨by decide⟩
instance : Beside avoid (.single .dotDot) := .of_outside ⟨by decide⟩
instance : Beside avoid (.single .caret) := .of_outside ⟨by decide⟩
instance : Beside avoid (.single .lparen) := .of_outside ⟨by decide⟩
instance : Beside avoid (.single .lbracket) := .of_outside ⟨by decide⟩
instance : Beside avoid (.single .lbrace) := .of_outside ⟨by decide⟩
instance : Beside avoid (.single .rparen) := .of_outside ⟨by decide⟩
instance : Beside avoid (.single .rbracket) := .of_outside ⟨by decide⟩
instance : Beside avoid (.single .rbrace) := .of_outside ⟨by decide⟩
instance : Beside avoid (.single .kwIs) := .of_outside ⟨by decide⟩
instance : Beside avoid (.single .kwIf) := .of_outside ⟨by decide⟩
instance : Beside avoid (.single .kwThen) := .of_outside ⟨by decide⟩
instance : Beside avoid (.single .kwElse) := .of_outside ⟨by decide⟩
instance : Beside avoid (.single .kwMatch) := .of_outside ⟨by decide⟩
instance : Beside avoid (.single .kwReturn) := .of_outside ⟨by decide⟩
instance : Beside avoid (.single .kwUniverse) := .of_outside ⟨by decide⟩
instance : Beside avoid (.single .kwLet) := .of_outside ⟨by decide⟩

end Outside

instance : Beside [] (.single .colon) := ⟨by decide⟩
instance : Beside [.eq] (.single .colon) := ⟨by decide⟩
instance : Beside [] (.single .eq) := ⟨by decide⟩
instance : Beside [] (.single .quote) := ⟨by decide⟩

end TagSet

namespace Grammar

open Parse

/-! ## Tokens that are passed -/

/-- From one state to another properly bracketed tokens were passed, with none of some tags outside of
brackets. -/
structure Passes (avoid : List Tag) (s s' : State) : Prop where
  tokens : s'.cursor.tokens = s.cursor.tokens
  position : s.cursor.position ≤ s'.cursor.position
  closes : Closes 0 (s.cursor.tokens.slice s.cursor.position s'.cursor.position)
  free : ∀ tag ∈ avoid, occursIn tag (s.cursor.tokens.slice s.cursor.position s'.cursor.position) 0 = false

namespace Passes

variable {avoid : List Tag} {s t u : State}

theorem stay (htokens : t.cursor.tokens = s.cursor.tokens) (hposition : t.cursor.position = s.cursor.position) :
    Passes avoid s t where
  tokens := htokens
  position := Nat.le_of_eq hposition.symm
  closes := by
    rw [hposition, TokenList.slice_self]
    rfl
  free _ _ := by
    rw [hposition, TokenList.slice_self]
    rfl

theorem trans (h : Passes avoid s t) (k : Passes avoid t u) : Passes avoid s u := by
  have hslice := s.cursor.tokens.slice_append h.position k.position
  have hcloses := k.closes
  have hfree := k.free
  rw [h.tokens] at hcloses hfree
  refine ⟨k.tokens.trans h.tokens, Nat.le_trans h.position k.position, ?_, fun tag htag => ?_⟩
  · rw [← hslice]
    exact h.closes.append_iff.2 hcloses
  · rw [← hslice, occursIn_append h.closes, h.free tag htag, hfree tag htag]
    rfl

/-- A token that is no bracket. -/
theorem token (hplain : s.cursor.currentTag.isPlain = true) (hmem : s.cursor.currentTag ∉ avoid)
    (htokens : t.cursor.tokens = s.cursor.tokens) (hposition : t.cursor.position = s.cursor.position + 1) :
    Passes avoid s t := by
  obtain ⟨tok, htok, hslice⟩ :=
    TokenList.slice_cons (Tag.ne_eof_of_isPlain hplain) (Nat.lt_succ_self s.cursor.position)
  rw [TokenList.slice_self] at hslice
  refine ⟨htokens, by omega, ?_, fun tag htag => ?_⟩
  · have nested : Nested false [tok] := .single (htok ▸ hplain) nofun
    have hcloses : Closes 0 [tok] := nested.closes_zero
    rwa [hposition, hslice]
  · have hne : ¬(0 = 0 ∧ tok.tag = tag ∧ ¬tok.tag.isOpening = true ∧ ¬tok.tag.isClosing = true) :=
      fun h => hmem (by rw [show s.cursor.currentTag = tag from htok.symm.trans h.2.1]; exact htag)
    rw [hposition, hslice, occursIn, if_neg hne]
    rfl

end Passes

/-! ## A place, and what is asked for there -/

/-- An index in a token list, and a tag. -/
structure Spot where
  tokens : TokenList
  index : Nat
  tag : Tag

namespace Spot

variable {p : Spot} {s t : State} {l : Option Nat} {avoid : List Tag}

/-- A tag that is asked for at no level: an end, or a fat arrow behind a square bracket. -/
def Rare (p : Spot) : Prop :=
  p.tag = .eof ∨ p.tag = .fatArrow ∧ ∃ j, j + 1 = p.index ∧ p.tokens.tagAt j = .rbracket

/-- From a position on so many brackets that are open there are closed before the index; for a rare tag it
does not matter how many. -/
def Level (p : Spot) : Option Nat → Nat → Prop
  | none, _ => p.Rare
  | some k, i => i ≤ p.index → Closes k (p.tokens.slice i p.index)

/-- A state at a level, in which the tag has not been asked for at the index. -/
structure Rests (p : Spot) (l : Option Nat) (s : State) : Prop where
  tokens : s.cursor.tokens = p.tokens
  probed : s.cursor.probedAt ≤ s.cursor.position
  level : p.Level l s.cursor.position
  fresh : s.cursor.position = p.index → s.cursor.expectedHere.contains p.tag = false

/-- The tag has not been asked for at the index by the end of a run. -/
def Hushed (p : Spot) : EStateM.Result Failure State α → Prop
  | .ok _ s => s.cursor.probedAt ≤ s.cursor.position ∧
      (s.cursor.position = p.index → s.cursor.expectedHere.contains p.tag = false)
  | .error (.error e) s => s.cursor.position = p.index → e.expected.contains p.tag = false
  | .error .exhausted _ => True

theorem Level.pass (h : p.Level l s.cursor.position) (htokens : s.cursor.tokens = p.tokens)
    (k : Passes avoid s t) : p.Level l t.cursor.position := by
  cases l with
  | none => exact h
  | some d =>
    intro hle
    have hslice := p.tokens.slice_append k.position hle
    have hcloses := h (Nat.le_trans k.position hle)
    have hpassed := k.closes
    rw [htokens] at hpassed
    rw [← hslice, ← Nat.zero_add d] at hcloses
    exact hpassed.append_iff.1 hcloses

/-- No bracket is open at the index itself. -/
theorem Level.eq_zero {k : Nat} (h : p.Level (some k) p.index) : k = 0 := by
  have := h (Nat.le_refl _)
  rwa [TokenList.slice_self] at this

namespace Rests

/-- Nothing has been asked for yet at a new place. -/
theorem fresh_of_lt {c d : Cursor} (hprobed : c.probedAt ≤ c.position) (hlt : c.position < d.position)
    (hsame : d.probedAt = c.probedAt) (tag : Tag) : d.expectedHere.contains tag = false := by
  rw [Cursor.expectedHere_of_moved (by omega), TagSet.contains_empty]

/-- Later, where something else has been asked for. -/
theorem pass (h : p.Rests l s) (k : Passes avoid s t) (hushed : t.cursor.probedAt ≤ t.cursor.position ∧
    (t.cursor.position = p.index → t.cursor.expectedHere.contains p.tag = false)) : p.Rests l t :=
  ⟨k.tokens.trans h.tokens, hushed.1, h.level.pass h.tokens k, hushed.2⟩

/-- The same place, with something else missed. -/
theorem note (h : p.Rests l s) {set : TagSet}
    (hset : s.cursor.position = p.index → set.contains p.tag = false) : p.Rests l (s.noted set) where
  tokens := h.tokens
  probed := Nat.le_refl _
  level := h.level
  fresh heq := by
    show (s.cursor.note set).expectedHere.contains p.tag = false
    rw [Cursor.expectedHere_note, TagSet.contains_union, h.fresh heq, hset heq]
    rfl

/-- The next place, behind a token. -/
theorem step (h : p.Rests l s) {l' : Option Nat} (hlevel : p.Level l' (s.cursor.position + 1)) :
    p.Rests l' (s.moved (s.cursor.position + 1)) where
  tokens := h.tokens
  probed := Nat.le_succ_of_le h.probed
  level := hlevel
  fresh _ := fresh_of_lt (d := (s.moved (s.cursor.position + 1)).cursor) h.probed (Nat.lt_succ_self _) rfl p.tag

end Rests

end Spot

/-! ## Calm steps -/

/-- A step from a state. -/
structure CalmFrom (p : Spot) (avoid : List Tag) (q : Parse α) (s : State) : Prop where
  passes : ∀ a s', q s = .ok a s' → Passes avoid s s'
  hushed : ∀ l, p.Rests l s → (l = some 0 → p.tag ∈ avoid) → p.Hushed (q s)

/-- A step that passes properly bracketed tokens, with none of some tags outside of brackets, and asks for
these in brackets of its own only. -/
class Calm (p : Spot) (avoid : List Tag) (q : Parse α) : Prop where
  calm : ∀ s, CalmFrom p avoid q s

/-- A step that is calm before a token of a set. -/
class CalmOn (p : Spot) (avoid : List Tag) (set : TagSet) (q : Parse α) : Prop where
  calm : ∀ s, set.contains s.cursor.currentTag = true → CalmFrom p avoid q s

section Combinators

variable {p : Spot} {avoid : List Tag} {s : State} {l : Option Nat} {q : Parse α} {f : α → Parse β}

theorem CalmFrom.rests (h : CalmFrom p avoid q s) (hs : p.Rests l s) (hl : l = some 0 → p.tag ∈ avoid) {a : α}
    {s' : State} (hq : q s = .ok a s') : p.Rests l s' := by
  have hushed := h.hushed l hs hl
  rw [hq] at hushed
  exact hs.pass (h.passes a s' hq) hushed

theorem CalmFrom.bind (h : CalmFrom p avoid q s) (hf : ∀ a s', q s = .ok a s' → CalmFrom p avoid (f a) s') :
    CalmFrom p avoid (q >>= f) s where
  passes b s' hrun := by
    obtain ⟨a, s₁, hq, hrun⟩ := exists_of_bind_ok hrun
    exact (h.passes a s₁ hq).trans ((hf a s₁ hq).passes b s' hrun)
  hushed l hs hl := by
    cases hq : q s with
    | ok a s₁ =>
      rw [bind_of_ok hq]
      exact (hf a s₁ hq).hushed l (h.rests hs hl hq) hl
    | error e s₁ =>
      have hushed := h.hushed l hs hl
      rw [hq] at hushed
      rw [bind_of_error hq]
      cases e <;> exact hushed

theorem CalmFrom.of_eq {q' : Parse α} (h : CalmFrom p avoid q s) (hq : q' s = q s) : CalmFrom p avoid q' s := by
  obtain ⟨passes, hushed⟩ := h
  rw [← hq] at hushed
  simp only [← hq] at passes
  exact ⟨passes, hushed⟩

theorem CalmFrom.within (h : CalmFrom p avoid q s) (what : Construct) : CalmFrom p avoid (within what q) s where
  passes a s' hrun := h.passes a s' (within_ok hrun)
  hushed l hs hl := by
    have hushed := h.hushed l hs hl
    unfold Parse.within
    cases hq : q s with
    | ok a s₁ => rwa [hq] at hushed
    | error e s₁ =>
      rw [hq] at hushed
      cases e <;> exact hushed

/-- A step that leaves the cursor as it is. -/
theorem CalmFrom.still {a : α} {s' : State} (hq : q s = .ok a s') (hcursor : s'.cursor = s.cursor) :
    CalmFrom p avoid q s where
  passes b t ht := by
    rw [hq] at ht
    cases ht
    exact .stay (by rw [hcursor]) (by rw [hcursor])
  hushed l hs _ := by
    rw [hq]
    show s'.cursor.probedAt ≤ s'.cursor.position ∧ _
    rw [hcursor]
    exact ⟨hs.probed, hs.fresh⟩

instance : Sequential fun _ => Calm p avoid where
  pure _ := ⟨fun _ => .still rfl rfl⟩
  bind h hf := ⟨fun s => (h.calm s).bind fun a s' _ => (hf a).calm s'⟩
  exhausted := ⟨fun _ => ⟨nofun, fun _ _ _ => trivial⟩⟩
  within what h := ⟨fun s => (h.calm s).within what⟩
  bounded h := ⟨fun s => ⟨((h s.bound).calm s).passes, ((h s.bound).calm s).hushed⟩⟩

instance [h : Has (fun _ => Calm p avoid) q] : Calm p avoid q := h.has

instance (priority := low) [h : Calm p avoid q] : Has (fun _ => Calm p avoid) q := ⟨h⟩

variable {set : TagSet}

instance (priority := low) [h : Calm p avoid q] : CalmOn p avoid set q := ⟨fun s _ => h.calm s⟩

instance [h : CalmOn p avoid set q] [hf : ∀ a, Calm p avoid (f a)] : CalmOn p avoid set (q >>= f) :=
  ⟨fun s hs => (h.calm s hs).bind fun a s' _ => (hf a).calm s'⟩

instance [hq : Calm p avoid q] [hstill : Still q] [hf : ∀ a, CalmOn p avoid set (f a)] :
    CalmOn p avoid set (q >>= f) := by
  refine ⟨fun s hs => (hq.calm s).bind fun a s' hrun => (hf a).calm s' ?_⟩
  obtain ⟨_, _, hrun', htokens, hposition⟩ := hstill.stays s
  rw [hrun] at hrun'
  cases hrun'
  rwa [currentTag_of_place htokens hposition]

instance [h : CalmOn p avoid set q] (what : Construct) : CalmOn p avoid set (within what q) :=
  ⟨fun s hs => (h.calm s hs).within what⟩

/-- A question, and what is done if the answer is yes. -/
instance {test : Parse Bool} [ht : Finds set test] [hcalm : Calm p avoid test] {q' : Parse α}
    [h : CalmOn p avoid set q] [h' : Calm p avoid q'] :
    Calm p avoid (test >>= fun c => if c = true then q else q') := by
  refine ⟨fun s => (hcalm.calm s).bind fun c s' hrun => ?_⟩
  cases c with
  | true => exact h.calm s' (Finds.there hrun).1
  | false => exact h'.calm s'

instance {test : Parse Bool} [Finds set test] [Calm p avoid test] [CalmOn p avoid set q] :
    Calm p avoid (optionally test q) := by
  unfold optionally
  infer_instance

/-- What is done before the current token. -/
theorem Calm.of_current {f : Token → Parse α} (h : ∀ token : Token, CalmOn p avoid (.single token.tag) (f token)) :
    Calm p avoid (current >>= f) :=
  ⟨fun s => (CalmFrom.still (q := current) rfl rfl).bind fun a s' hrun => by
    cases hrun
    exact (h s.cursor.current).calm s (currentTag_eq_tag s.cursor ▸ TagSet.contains_single_self _)⟩

end Combinators

/-! ## Steps on the cursor -/

section Steps

variable {p : Spot} {avoid : List Tag} {s : State} {l : Option Nat} {set : TagSet} {tag : Tag}

/-- What is asked for at the index is not the tag there, unless in brackets that close before. -/
theorem Spot.Rests.lacks [h : TagSet.Beside avoid set] (hs : p.Rests l s) (hl : l = some 0 → p.tag ∈ avoid)
    (heq : s.cursor.position = p.index) : set.contains p.tag = false := by
  match l with
  | none =>
    obtain htag | ⟨htag, -⟩ : p.Rare := hs.level
    · rw [htag]
      exact h.lacks _ List.mem_cons_self
    · rw [htag]
      exact h.lacks _ (List.mem_cons_of_mem _ List.mem_cons_self)
  | some 0 => exact h.lacks _ (List.mem_cons_of_mem _ (List.mem_cons_of_mem _ (hl rfl)))
  | some (k + 1) => cases (heq ▸ hs.level : p.Level _ p.index).eq_zero

instance (f : Cursor → α) : Calm p avoid (look f) := ⟨fun _ => .still rfl rfl⟩

/-- Something is missed. -/
theorem CalmFrom.noted [TagSet.Beside avoid set] {q : Parse α} {a : α} (hrun : q s = .ok a (s.noted set)) :
    CalmFrom p avoid q s := by
  refine ⟨fun b s' h => ?_, fun l hs hl => ?_⟩
  · rw [hrun] at h
    cases h
    exact .stay rfl rfl
  · rw [hrun]
    have noted : p.Rests l (s.noted set) := hs.note fun heq => hs.lacks hl heq
    exact ⟨noted.probed, noted.fresh⟩

instance [TagSet.Beside avoid set] : Calm p avoid (note set) := ⟨fun s => @CalmFrom.noted _ _ s set _ _ _ _ rfl⟩

instance [TagSet.Beside avoid set] : Calm p avoid (checkSet set) := by
  refine ⟨fun s => ?_⟩
  cases h : set.contains s.cursor.currentTag with
  | true => exact .still (checkSet_of_mem h) rfl
  | false => exact .noted (checkSet_of_not_mem h)

instance [TagSet.Beside avoid (.single tag)] : Calm p avoid (check tag) := by
  rw [check_eq_checkSet]; infer_instance

instance (c : Complaint) : Calm p avoid (fail c : Parse α) := ⟨fun _ => ⟨nofun, fun _ hs _ => hs.fresh⟩⟩

instance [TagSet.Beside avoid set] (c : Complaint) : Calm p avoid (failWanting set c : Parse α) := by
  unfold failWanting; infer_instance

/-- A token that is no bracket is taken. -/
theorem CalmFrom.advance (hplain : s.cursor.currentTag.isPlain = true) (hmem : s.cursor.currentTag ∉ avoid) :
    CalmFrom p avoid advance s := by
  have hend : s.cursor.isAtEnd = false := beq_false_of_ne (Tag.ne_eof_of_isPlain hplain)
  refine ⟨fun a s' hrun => ?_, fun l hs _ => ?_⟩
  · rw [advance_of_not_isAtEnd hend] at hrun
    cases hrun
    exact .token hplain hmem rfl rfl
  · rw [advance_of_not_isAtEnd hend]
    exact ⟨Nat.le_succ_of_le hs.probed, fun _ =>
      Spot.Rests.fresh_of_lt (d := (s.moved _).cursor) hs.probed (Nat.lt_succ_self _) rfl p.tag⟩

instance [hplain : TagSet.Plain set] [hset : TagSet.Beside avoid set] : CalmOn p avoid set advance :=
  ⟨fun _ h => .advance (hplain.isPlain _ h) (hset.not_mem h)⟩

instance [TagSet.Plain (.single tag)] [TagSet.Beside avoid (.single tag)] : Calm p avoid (accept tag) := by
  unfold accept; infer_instance

instance [TagSet.Plain (.single tag)] [TagSet.Beside avoid (.single tag)] : Calm p avoid (expect tag) := by
  rw [expect_eq_check]; infer_instance

instance [TagSet.Beside avoid (.single tag)] : Calm p avoid (isBefore tag) := by unfold isBefore; infer_instance

instance : Calm p avoid current := by unfold current; infer_instance
instance : Calm p avoid previousSpan := by unfold previousSpan; infer_instance
instance : Calm p avoid (isAt tag) := by unfold isAt; infer_instance
instance (start : Span) : Calm p avoid (spanFrom start) := by unfold spanFrom; infer_instance

theorem calm_identOf [TagSet.Beside avoid .identStart] (token : Token) :
    CalmOn p avoid (.single token.tag) (identOf token) := by
  have start {tag : Tag} (h : TagSet.identStart.contains tag = true) : TagSet.Beside avoid (.single tag) := .of_mem h
  have : TagSet.Beside avoid (.single .ident) := start rfl
  have : TagSet.Beside avoid (.single .symbol) := start rfl
  have : TagSet.Plain (.single .ident) := .single rfl
  have : TagSet.Plain (.single .symbol) := .single rfl
  obtain ⟨kind, _, _⟩ := token
  unfold identOf
  cases kind <;> simp only [Token.tag, TokenKind.tag] <;> infer_instance

instance [TagSet.Beside avoid .identStart] : Calm p avoid expectIdent := by
  rw [expectIdent_eq_identOf]
  exact .of_current calm_identOf

/-- Tokens of some kinds are skipped. -/
theorem Passes.skip {q : Tag → Bool} (hplain : ∀ tag, q tag = true → tag.isPlain = true)
    (hmem : ∀ tag, q tag = true → tag ∉ avoid) (s : State) (i : Nat) :
    Passes avoid (s.moved i) (s.moved (Cursor.skipFrom s.cursor.tokens q i)) := by
  fun_induction Cursor.skipFrom s.cursor.tokens q i with
  | case1 i h ih =>
    exact (Passes.token (s := s.moved i) (t := s.moved (i + 1)) (hplain _ h.2) (hmem _ h.2) rfl rfl).trans ih
  | case2 i h => exact .stay rfl rfl

/-- A step that skips them. -/
theorem CalmFrom.skip {q : Tag → Bool} (hplain : ∀ tag, q tag = true → tag.isPlain = true)
    (hmem : ∀ tag, q tag = true → tag ∉ avoid) {f : Parse α} {a : α}
    (hrun : f s = .ok a (s.moved (Cursor.skipFrom s.cursor.tokens q s.cursor.position))) : CalmFrom p avoid f s := by
  refine ⟨fun b s' h => ?_, fun l hs _ => ?_⟩
  · rw [hrun] at h
    cases h
    exact .skip hplain hmem s s.cursor.position
  · rw [hrun]
    have hle := Cursor.le_skipFrom s.cursor.tokens q s.cursor.position
    refine ⟨Nat.le_trans hs.probed hle, fun heq => ?_⟩
    rcases Nat.lt_or_eq_of_le hle with hlt | hsame
    · exact Spot.Rests.fresh_of_lt (d := (s.moved _).cursor) hs.probed hlt rfl p.tag
    · rw [← hsame] at heq ⊢
      exact hs.fresh heq

instance [h : TagSet.Beside avoid (.single .newline)] : Calm p avoid skipNewlines :=
  ⟨fun s => .skip (q := (· == .newline)) (a := ()) (fun tag htag => by rw [eq_of_beq htag]; rfl)
    (fun tag htag => h.not_mem (by rw [eq_of_beq htag]; rfl)) rfl⟩

theorem eatSeparators_eq_ite (s : State) : eatSeparators s =
    let i := Cursor.skipFrom s.cursor.tokens (fun tag => tag == .comma || tag == .newline) s.cursor.position
    if i = s.cursor.position then .ok false (s.noted (.ofList [.comma, .newline])) else .ok true (s.moved i) := by
  simp only [eatSeparators, step, Cursor.eatSeparators]
  split <;> rfl

instance [h : TagSet.Beside avoid (.ofList [.comma, .newline])] : Calm p avoid eatSeparators := by
  refine ⟨fun s => ?_⟩
  have hrun := eatSeparators_eq_ite s
  by_cases hstays : Cursor.skipFrom s.cursor.tokens (fun tag => tag == .comma || tag == .newline) s.cursor.position =
      s.cursor.position
  · rw [if_pos hstays] at hrun
    exact .noted hrun
  · rw [if_neg hstays] at hrun
    refine .skip (fun tag htag => ?_) (fun tag htag => h.not_mem ?_) hrun
    · revert htag
      cases tag <;> decide
    · revert htag
      cases tag <;> decide

instance [TagSet.Beside avoid (.single .newline)] [TagSet.Beside avoid (.single .comma)] :
    Calm p avoid commaSeparator := by
  unfold commaSeparator; infer_instance

instance [TagSet.Beside avoid (.single .newline)] : Calm p avoid breakSeparator := by
  unfold breakSeparator; infer_instance

instance (kind : ExprKind) (span : Span) : Calm p avoid (newExpr kind span) := ⟨fun _ => .still rfl rfl⟩
instance (kind : PatternKind) (span : Span) : Calm p avoid (newPattern kind span) := ⟨fun _ => .still rfl rfl⟩
instance (id : ExprId) : Calm p avoid (exprSpan id) := ⟨fun _ => .still rfl rfl⟩
instance (id : PatternId) : Calm p avoid (patternSpan id) := ⟨fun _ => .still rfl rfl⟩
instance (text : String) : Calm p avoid (intern text) := ⟨fun _ => .still rfl rfl⟩
instance (id : ExprId) : Calm p avoid (isClosedForm id) := ⟨fun _ => .still rfl rfl⟩
instance (id : ExprId) : Calm p avoid (isOpenIf id) := ⟨fun _ => .still rfl rfl⟩

/-- Only a block is complained of, wherever it is. -/
instance (id : ExprId) : Calm p avoid (toType id) := by
  refine ⟨fun s => ?_⟩
  unfold toType
  cases h : s.arena.toType id with
  | mk r a =>
    cases r with
    | ok x => exact @CalmFrom.still _ _ _ s _ () { s with arena := a } (by rw [h]) rfl
    | error e =>
      refine ⟨fun b s' hrun => ?_, fun l hs hl => ?_⟩
      · rw [h] at hrun
        cases hrun
      · rw [h]
        exact fun _ => TagSet.contains_empty _

end Steps

end Grammar

end SolSyntax
