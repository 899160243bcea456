import Mathlib.Data.List.Induction
import SolSyntax.Proofs.Taking

/-!
# What was missed here

A cursor forgets its misses lazily: it compares the position at which they were made with its own.  So
whether a miss still counts depends on the whole history of the cursor, which may also go back.  The set of
expected tags is nevertheless what one would keep by hand: all that was asked for and not found since the
position last changed or the misses were last dropped, and nothing else.

Principal results: `Cursor.contains_act` — one operation; `Cursor.mem_expectedHere` — a history of
operations.
-/

namespace SolSyntax.Cursor

/-- What can be done with a cursor. -/
inductive Operation where
  /-- A query, which gives no cursor back: what a token here, before or ahead is, where a bracket is
  closed, what the line holds, what an error here would say. -/
  | look
  | isAt (t : Tag)
  | check (t : Tag)
  | checkSet (s : TagSet)
  | note (s : TagSet)
  | advance
  | expect (t : Tag)
  | expectIdent
  | skipNewlines
  | eatSeparators
  | seek (position : Nat)
  | setPosition (position : Nat)
  | resetExpected
  deriving DecidableEq, Repr

namespace Operation

/-- The cursor after an operation. -/
def act (c : Cursor) : Operation → Cursor
  | look | isAt _ => c
  | check t => (c.check t).2
  | checkSet s => (c.checkSet s).2
  | note s => c.note s
  | advance => c.advance.2
  | expect t => (c.expect t).2
  | expectIdent => c.expectIdent.2
  | skipNewlines => c.skipNewlines
  | eatSeparators => c.eatSeparators.2
  | seek position => c.seek position
  -- an index out of bounds is refused
  | setPosition position =>
    match c.setPosition position with
    | .ok c => c
    | .error _ => c
  | resetExpected => c.resetExpected

/-- The tags that an operation asks for without finding one of them, or adds by hand. -/
def missed (c : Cursor) : Operation → TagSet
  | check t | expect t => if c.isAt t then .empty else .single t
  | checkSet s => if s.contains c.currentTag then .empty else s
  | note s => s
  | expectIdent => if TagSet.identStart.contains c.currentTag then .empty else .identStart
  | eatSeparators => if c.isAt .comma || c.isAt .newline then .empty else .ofList [.comma, .newline]
  | look | isAt _ | advance | skipNewlines | seek _ | setPosition _ | resetExpected => .empty

/-- Whether an operation drops what was missed, wherever the cursor stands after it. -/
def drops (c : Cursor) : Operation → Bool
  | seek _ | resetExpected => true
  | setPosition position => decide (position < c.tokens.size)
  | _ => false

/-- Whether what was missed before an operation still counts after it. -/
def Stays (c : Cursor) (op : Operation) : Prop := (op.act c).position = c.position ∧ op.drops c = false

end Operation

/-- The cursor after some operations. -/
def after (c : Cursor) (ops : List Operation) : Cursor := ops.foldl (fun c op => op.act c) c

/-- The cursor stays where it is, and keeps what was missed. -/
def StaysOver (c : Cursor) : List Operation → Prop
  | [] => True
  | op :: ops => op.Stays c ∧ StaysOver (op.act c) ops

/-- What changes nothing: to look, to ask and find, and to take the end. -/
def Operation.IsQuiet (c : Cursor) : Operation → Prop
  | look | isAt _ => True
  | check t => c.isAt t = true
  | checkSet s => s.contains c.currentTag = true
  | advance => c.isAtEnd = true
  | expect t => t = .eof ∧ c.isAtEnd = true
  | _ => False

/-! ## One operation -/

/-- The misses are not those of a place further on. -/
def Timely (c : Cursor) : Prop := c.probedAt ≤ c.position

/-- What an operation that drops nothing does: it stays and adds what it missed, or it goes on. -/
structure Goes (c d : Cursor) (missed : TagSet) : Prop where
  timely : d.Timely
  stayed : d.position = c.position → d.expectedHere = c.expectedHere.union missed
  moved : d.position ≠ c.position → d.expectedHere = .empty

namespace Goes

theorem note (c : Cursor) (s : TagSet) : Goes c (c.note s) s where
  timely := Nat.le_refl c.position
  stayed := fun _ => expectedHere_note c s
  moved := fun hne => (hne rfl).elim

variable {c : Cursor} (h : c.Timely)
include h

theorem refl : Goes c c .empty where
  timely := h
  stayed := fun _ => TagSet.ext fun t => by simp
  moved := fun hne => (hne rfl).elim

theorem move {position : Nat} (hle : c.position ≤ position) : Goes c { c with position } .empty where
  timely := Nat.le_trans h hle
  stayed := fun hposition => by
    obtain rfl : position = c.position := hposition
    exact (refl h).stayed rfl
  moved := fun hne => by
    have hlt : c.position < position := Nat.lt_of_le_of_ne hle (Ne.symm hne)
    exact expectedHere_of_moved (Nat.ne_of_lt (Nat.lt_of_le_of_lt h hlt))

theorem advance : Goes c c.advance.2 .empty := by
  rw [Cursor.advance]
  split
  · exact refl h
  · exact move h (Nat.le_succ _)

end Goes

/-- To ask for tags, and go on if one is found. -/
theorem Goes.ask {c d : Cursor} {hit : Bool} (h : Goes c d .empty) (s : TagSet) :
    Goes c (if hit then d else c.note s) (if hit then .empty else s) := by
  cases hit with
  | true => exact h
  | false => exact .note c s

theorem check_snd (c : Cursor) (t : Tag) :
    (c.check t).2 = if c.isAt t then c else c.note (.single t) := by
  rw [check]
  split <;> rfl

theorem checkSet_snd (c : Cursor) (s : TagSet) :
    (c.checkSet s).2 = if s.contains c.currentTag then c else c.note s := by
  rw [checkSet]
  split <;> rfl

theorem expect_snd (c : Cursor) (t : Tag) :
    (c.expect t).2 = if c.isAt t then c.advance.2 else c.note (.single t) := by
  rw [expect, check]
  cases c.isAt t <;> rfl

theorem expectIdent_snd (c : Cursor) : c.expectIdent.2 =
    if TagSet.identStart.contains c.currentTag then c.advance.2 else c.note .identStart := by
  have hstart : ∀ t : Tag, TagSet.identStart.contains t = (t == .ident || t == .symbol) := by
    intro t
    cases t <;> decide
  rw [Grammar.currentTag_eq_tag, Token.tag, hstart, expectIdent]
  cases c.current.kind <;> rfl

/-- Separators are taken exactly if one stands here. -/
theorem eatSeparators_goes {c : Cursor} (h : c.Timely) :
    Goes c c.eatSeparators.2 (Operation.eatSeparators.missed c) := by
  let p : Tag → Bool := fun t => t == .comma || t == .newline
  have hmissed : Operation.eatSeparators.missed c =
      if p c.currentTag then .empty else .ofList [.comma, .newline] := rfl
  have hact : c.eatSeparators.2 = if skipFrom c.tokens p c.position = c.position then
      c.note (.ofList [.comma, .newline]) else { c with position := skipFrom c.tokens p c.position } := by
    rw [eatSeparators]
    split <;> rfl
  rw [hmissed, hact]
  cases hp : p c.currentTag with
  | true =>
    -- a separator is a token, so the cursor gets behind it
    have hsize : c.position < c.tokens.size := by
      refine Nat.not_le.1 fun hle => ?_
      rw [currentTag, tagAt, TokenList.tagAt_of_size_le hle] at hp
      cases hp
    have hmoved : skipFrom c.tokens p c.position ≠ c.position := by
      rw [skipFrom, if_pos ⟨hsize, hp⟩]
      have := le_skipFrom c.tokens p (c.position + 1)
      omega
    rw [if_neg hmoved]
    exact .move h (le_skipFrom _ _ _)
  | false =>
    have hstays : skipFrom c.tokens p c.position = c.position := by
      rw [skipFrom, if_neg]
      exact fun hp' => Bool.false_ne_true (hp.symm.trans hp'.2)
    rw [if_pos hstays]
    exact .note c _

/-- What an operation does to the misses. -/
theorem act_goes {c : Cursor} (h : c.Timely) (op : Operation) (hdrops : op.drops c = false) :
    Goes c (op.act c) (op.missed c) := by
  cases op with
  | look | isAt t => exact .refl h
  | check t =>
    rw [Operation.act, check_snd]
    exact (Goes.refl h).ask _
  | checkSet s =>
    rw [Operation.act, checkSet_snd]
    exact (Goes.refl h).ask s
  | note s => exact .note c s
  | advance => exact .advance h
  | expect t =>
    rw [Operation.act, expect_snd]
    exact (Goes.advance h).ask _
  | expectIdent =>
    rw [Operation.act, expectIdent_snd]
    exact (Goes.advance h).ask _
  | skipNewlines => exact .move h (le_skipFrom _ _ _)
  | eatSeparators => exact eatSeparators_goes h
  | setPosition position =>
    have hout : ¬position < c.tokens.size := of_decide_eq_false hdrops
    rw [Operation.act, setPosition, if_neg hout]
    exact .refl h
  | seek position | resetExpected => cases hdrops

theorem act_drops (c : Cursor) {op : Operation} (h : op.drops c = true) :
    (op.act c).Timely ∧ (op.act c).expectedHere = .empty := by
  cases op with
  | seek position => exact ⟨Nat.le_refl _, expectedHere_resetExpected _⟩
  | resetExpected => exact ⟨Nat.le_refl _, expectedHere_resetExpected _⟩
  | setPosition position =>
    rw [Operation.act, setPosition, if_pos (of_decide_eq_true h)]
    exact ⟨Nat.le_refl _, expectedHere_resetExpected _⟩
  | _ => cases h

/-- One operation: what was missed is forgotten, or what the operation missed comes to it. -/
theorem contains_act {c : Cursor} (h : c.Timely) (op : Operation) (t : Tag) :
    (op.act c).expectedHere.contains t = true ↔
      op.Stays c ∧ (c.expectedHere.contains t = true ∨ (op.missed c).contains t = true) := by
  cases hdrops : op.drops c with
  | true =>
    rw [(act_drops c hdrops).2, Operation.Stays, hdrops]
    simp
  | false =>
    have hgoes := act_goes h op hdrops
    by_cases hposition : (op.act c).position = c.position
    · rw [hgoes.stayed hposition, Operation.Stays, hdrops]
      simp [hposition]
    · rw [hgoes.moved hposition, Operation.Stays]
      simp [hposition]

/-! ## A history -/

theorem after_snoc (c : Cursor) (ops : List Operation) (op : Operation) :
    c.after (ops ++ [op]) = op.act (c.after ops) := by
  rw [after, after, List.foldl_append]
  rfl

theorem staysOver_snoc (c : Cursor) (ops : List Operation) (op : Operation) :
    c.StaysOver (ops ++ [op]) ↔ c.StaysOver ops ∧ op.Stays (c.after ops) := by
  induction ops generalizing c with
  | nil => simp [StaysOver, after]
  | cons first ops ih => exact (and_congr_right fun _ => ih (first.act c)).trans and_assoc.symm

theorem after_timely (ts : TokenList) (ops : List Operation) : ((start ts).after ops).Timely := by
  induction ops using List.reverseRecOn with
  | nil => exact Nat.le_refl 0
  | append_singleton ops op ih =>
    rw [after_snoc]
    cases hdrops : op.drops ((start ts).after ops) with
    | true => exact (act_drops _ hdrops).1
    | false => exact (act_goes ih op hdrops).timely

theorem mem_misses (ts : TokenList) (ops : List Operation) (t : Tag) :
    ((start ts).after ops).expectedHere.contains t = true ↔
      ∃ before op later, ops = before ++ op :: later ∧
        (op.missed ((start ts).after before)).contains t = true ∧
        ((start ts).after before).StaysOver (op :: later) := by
  induction ops using List.reverseRecOn with
  | nil =>
    rw [after, List.foldl_nil, expectedHere_start, TagSet.contains_empty]
    simp
  | append_singleton ops op ih =>
    have hafter (before : List Operation) (first : Operation) (later : List Operation) :
        ((start ts).after before).after (first :: later) = (start ts).after (before ++ first :: later) := by
      rw [after, after, after, List.foldl_append]
    rw [after_snoc, contains_act (after_timely ts ops), ih]
    constructor
    · rintro ⟨hstays, ⟨before, first, later, rfl, hmissed, hover⟩ | hmissed⟩
      · refine ⟨before, first, later ++ [op], by simp, hmissed, ?_⟩
        rw [← List.cons_append, staysOver_snoc, hafter]
        exact ⟨hover, hstays⟩
      · exact ⟨ops, op, [], rfl, hmissed, hstays, trivial⟩
    · rintro ⟨before, first, later, heq, hmissed, hover⟩
      rcases List.eq_nil_or_concat later with rfl | ⟨later, last, rfl⟩
      · obtain ⟨rfl, hlast⟩ := List.append_inj' heq rfl
        obtain rfl := List.singleton_inj.1 hlast
        exact ⟨hover.1, .inr hmissed⟩
      · rw [List.concat_eq_append, ← List.cons_append, ← List.append_assoc] at heq
        obtain ⟨rfl, hlast⟩ := List.append_inj' heq rfl
        obtain rfl := List.singleton_inj.1 hlast
        rw [List.concat_eq_append, ← List.cons_append, staysOver_snoc, hafter] at hover
        exact ⟨hover.2, .inl ⟨before, first, later, rfl, hmissed, hover.1⟩⟩

theorem advance_of_isAtEnd {c : Cursor} (h : c.isAtEnd = true) : c.advance.2 = c := if_pos h

theorem act_of_isQuiet {c : Cursor} {op : Operation} (h : op.IsQuiet c) : op.act c = c := by
  cases op with
  | look | isAt t => rfl
  | check t => exact (check_snd c t).trans (if_pos h)
  | checkSet s => exact (checkSet_snd c s).trans (if_pos h)
  | advance => exact advance_of_isAtEnd h
  | expect t =>
    obtain ⟨rfl, hend⟩ := h
    have hat : c.isAt .eof = true := hend
    rw [Operation.act, expect_snd, if_pos hat, advance_of_isAtEnd hend]
  | _ => exact h.elim

/-- After any history the expected tags are those that an operation missed or added since when the cursor
has stayed where it is and dropped nothing.  To look, to ask and find, and to take the end change nothing. -/
theorem mem_expectedHere (ts : TokenList) (ops : List Operation) :
    (∀ t, ((start ts).after ops).expectedHere.contains t = true ↔
      ∃ before op later, ops = before ++ op :: later ∧
        (op.missed ((start ts).after before)).contains t = true ∧
        ((start ts).after before).StaysOver (op :: later)) ∧
    ∀ op : Operation, op.IsQuiet ((start ts).after ops) →
      (op.act ((start ts).after ops)).expectedHere = ((start ts).after ops).expectedHere :=
  ⟨mem_misses ts ops, fun _ h => congrArg expectedHere (act_of_isQuiet h)⟩

/-- What was missed before a comma is forgotten behind it, and to take the end there changes nothing. -/
theorem missed_behind_comma :
    let c := (start (.ofList [⟨.comma, ⟨0, 1⟩, .first⟩])).after [.check .newline, .advance, .check .rparen]
    c.expectedHere.contains .rparen = true ∧ ¬c.expectedHere.contains .newline = true ∧
      Operation.advance.IsQuiet c ∧ (Operation.advance.act c).expectedHere = c.expectedHere := by
  have hspec := mem_expectedHere (.ofList [⟨.comma, ⟨0, 1⟩, .first⟩])
    [.check .newline, .advance, .check .rparen]
  have hquiet : Operation.advance.IsQuiet ((start (.ofList [⟨.comma, ⟨0, 1⟩, .first⟩])).after
      [.check .newline, .advance, .check .rparen]) := by
    rw [Operation.IsQuiet]
    decide
  refine ⟨(hspec.1 .rparen).2 ⟨[.check .newline, .advance], .check .rparen, [], rfl, by decide, ?_⟩, by decide,
    hquiet, hspec.2 .advance hquiet⟩
  exact ⟨⟨by decide, by decide⟩, trivial⟩

end SolSyntax.Cursor
