import SolSyntax.Grammar.Expr

/-!
# What lies ahead

A cursor looks at the tokens from its position on and at the span of the one before.  Every question
that the grammar asks a cursor is a function of these, given here on lists of tokens.

Principal results: `closeFrom_eq`, `occursFrom_eq`, `lineHasFrom_eq`, `annotatedFrom_eq` — the scans
by index are the scans by list; `current_eq`, `groupFollowedBy_eq`, `isParamList_eq`, `isAnnotated_eq`,
`lineHas_eq` — so are the questions.
-/

namespace SolSyntax

/-- The brackets open after a tag, if `d` were open before it. -/
def Tag.depthFrom (t : Tag) (d : Nat) : Nat :=
  if t.isOpening then d + 1 else if t.isClosing then d - 1 else d

/-- The tag of the first token. -/
def headTag : List Token → Tag
  | [] => .eof
  | t :: _ => t.tag

@[simp] theorem headTag_nil : headTag [] = .eof := rfl

@[simp] theorem headTag_cons (t : Token) (ts : List Token) : headTag (t :: ts) = t.tag := rfl

theorem headTag_of_append {v u w : List Token} (h : v = u ++ w) (hu : u ≠ []) :
    headTag v = headTag u := by
  cases u with
  | nil => exact absurd rfl hu
  | cons t u => rw [h]; rfl

/-- The first token. -/
def headToken (ts : List Token) : Token := ts.headD .missingEnd

/-- The tokens without the line breaks before them. -/
def skipBreaks (ts : List Token) : List Token := ts.dropWhile (·.tag == .newline)

theorem skipBreaks_append_ite (v r : List Token) : skipBreaks (v ++ r) =
    if skipBreaks v = [] then skipBreaks r else skipBreaks v ++ r := by
  rw [skipBreaks, List.dropWhile_append]
  simp only [List.isEmpty_iff]
  rfl

/-- The tokens before the bracket that closes all brackets, `d` of them being open, and those after
it.  The kinds of brackets are not told apart. -/
def groupSplit : List Token → Nat → Option (List Token × List Token)
  | [], _ => none
  | t :: ts, d =>
    if t.tag.isClosing ∧ d ≤ 1 then some ([], ts)
    else if t.tag = .eof then none
    else (groupSplit ts (t.tag.depthFrom d)).map fun s => (t :: s.1, s.2)

/-- Whether a tag occurs outside of brackets, `d` of them being open. -/
def occursIn (tag : Tag) : List Token → Nat → Bool
  | [], _ => false
  | t :: ts, d =>
    if d = 0 ∧ t.tag = tag ∧ ¬t.tag.isOpening ∧ ¬t.tag.isClosing then true
    else occursIn tag ts (t.tag.depthFrom d)

/-- Whether a tag occurs outside of brackets on the line, in the group around it and before any of
`stops`, `d` brackets being open. -/
def lineHasIn (tag : Tag) (stops : TagSet) : List Token → Nat → Bool
  | [], _ => false
  | t :: ts, d =>
    if t.tag = .eof then false
    else if d = 0 ∧ t.tag = tag then true
    else if d = 0 ∧ (t.tag = .newline ∨ stops.contains t.tag ∨ t.tag.isClosing) then false
    else lineHasIn tag stops ts (t.tag.depthFrom d)

/-- Whether a colon comes before the comma or bracket that ends a parameter, `d` brackets being
open. -/
def annotatedIn : List Token → Nat → Bool
  | [], _ => false
  | t :: ts, d =>
    if t.tag = .eof then false
    else if d = 0 ∧ (t.tag.isClosing ∨ t.tag = .comma) then false
    else if d = 0 ∧ t.tag = .colon then true
    else annotatedIn ts (t.tag.depthFrom d)

/-- Whether an opening bracket starts a group that is followed by a tag. -/
def groupThen (tag : Tag) (ts : List Token) : Bool :=
  match groupSplit ts 0 with
  | some (_, after) => headTag after == tag
  | none => false

/-- Whether parentheses hold parameters: an arrow follows, and they start with a quote or hold a
colon outside of inner brackets. -/
def holdsParams (ts : List Token) : Bool :=
  match groupSplit ts 0 with
  | some (inside, after) =>
    headTag after == .arrow && (headTag (ts.drop 1) == .quote || occursIn .colon (inside.drop 1) 0)
  | none => false

/-! ## Scans by index -/

theorem tagAt_eq_headTag (ts : TokenList) (i : Nat) : ts.tagAt i = headTag (ts.toList.drop i) := by
  unfold TokenList.tagAt TokenList.toList
  by_cases h : i < ts.tokens.size
  · rw [Array.getElem?_eq_getElem h, List.drop_eq_getElem_cons (by simpa using h)]
    simp
  · rw [Array.getElem?_eq_none (by omega), List.drop_of_length_le (by simp; omega)]
    simp

theorem drop_eq_cons {ts : TokenList} {i : Nat} (h : i < ts.size) :
    ∃ t, t.tag = ts.tagAt i ∧ ts.toList.drop i = t :: ts.toList.drop (i + 1) := by
  have hl : i < ts.toList.length := by simpa [TokenList.toList, TokenList.size] using h
  refine ⟨ts.toList[i], ?_, List.drop_eq_getElem_cons hl⟩
  rw [tagAt_eq_headTag, List.drop_eq_getElem_cons hl, headTag_cons]

theorem take_drop_eq_cons {ts : TokenList} {i stop : Nat} (hs : i < stop) (h : i < ts.size) :
    ∃ t, t.tag = ts.tagAt i ∧
      (ts.toList.drop i).take (stop - i) = t :: (ts.toList.drop (i + 1)).take (stop - (i + 1)) := by
  obtain ⟨t, ht, hl⟩ := drop_eq_cons h
  refine ⟨t, ht, ?_⟩
  rw [hl, show stop - i = stop - (i + 1) + 1 by omega, List.take_succ_cons]

theorem drop_eq_nil {ts : TokenList} {i : Nat} (h : ¬i < ts.size) : ts.toList.drop i = [] := by
  apply List.drop_of_length_le
  simpa [TokenList.toList, TokenList.size] using h

theorem Tag.isClosing_of_isOpening {t : Tag} (h : t.isOpening = true) : t.isClosing = false := by
  cases t <;> simp_all [Tag.isOpening, Tag.isClosing]

theorem Tag.ne_eof_of_isOpening {t : Tag} (h : t.isOpening = true) : t ≠ .eof := by
  rintro rfl
  cases h

theorem Tag.ne_eof_of_isClosing {t : Tag} (h : t.isClosing = true) : t ≠ .eof := by
  rintro rfl
  cases h

namespace Cursor

open Grammar

theorem skipFrom_eq (ts : TokenList) (p : Tag → Bool) (i : Nat) :
    skipFrom ts p i = i + ((ts.toList.drop i).takeWhile (p ·.tag)).length := by
  fun_induction skipFrom ts p i with
  | case1 i h ih =>
    obtain ⟨t, ht, hd⟩ := drop_eq_cons h.1
    rw [ih, hd, List.takeWhile_cons, ht, if_pos h.2, List.length_cons]
    omega
  | case2 i h =>
    by_cases hi : i < ts.size
    · obtain ⟨t, ht, hd⟩ := drop_eq_cons hi
      rw [hd, List.takeWhile_cons, ht, if_neg fun hp => h ⟨hi, hp⟩]
      rfl
    · rw [drop_eq_nil hi]
      rfl

theorem drop_length_takeWhile {α : Type} (p : α → Bool) (l : List α) :
    l.drop (l.takeWhile p).length = l.dropWhile p := by
  induction l with
  | nil => rfl
  | cons a l ih =>
    by_cases h : p a = true
    · simp [h, ih]
    · simp [h]

theorem le_skipFrom (ts : TokenList) (p : Tag → Bool) (i : Nat) : i ≤ skipFrom ts p i := by
  fun_induction skipFrom ts p i with
  | case1 i h ih => omega
  | case2 i h => omega

theorem closeFrom_eq (ts : TokenList) (i d : Nat) :
    closeFrom ts i d = (groupSplit (ts.toList.drop i) d).map fun s => i + s.1.length := by
  fun_induction closeFrom ts i d
  case case6 i d hi =>
    rw [drop_eq_nil hi]
    rfl
  all_goals
    obtain ⟨t, ht, hl⟩ := drop_eq_cons ‹_›
    rw [hl, groupSplit]
    try cases hs : groupSplit (ts.toList.drop (_ + 1)) (t.tag.depthFrom _)
    all_goals
      grind [Tag.depthFrom, Tag.isClosing_of_isOpening, Tag.ne_eof_of_isOpening,
        Tag.ne_eof_of_isClosing]

theorem occursFrom_eq (ts : TokenList) (i stop d : Nat) (tag : Tag) (hs : stop ≤ ts.size) :
    occursFrom ts i stop d tag = occursIn tag ((ts.toList.drop i).take (stop - i)) d := by
  fun_induction occursFrom ts i stop d tag
  case case5 i d hi hn => omega
  case case6 i d hi => simp [show stop - i = 0 by omega, occursIn]
  all_goals
    obtain ⟨t, ht, hl⟩ := take_drop_eq_cons ‹_ < stop› ‹_ < ts.size›
    rw [hl]
    grind [occursIn, Tag.depthFrom]

theorem lineHasFrom_eq (ts : TokenList) (tag : Tag) (stops : TagSet) (i d : Nat) :
    lineHasFrom ts tag stops i d = lineHasIn tag stops (ts.toList.drop i) d := by
  fun_induction lineHasFrom ts tag stops i d
  case case8 i d hi =>
    rw [drop_eq_nil hi]
    rfl
  all_goals
    obtain ⟨t, ht, hl⟩ := drop_eq_cons ‹_ < ts.size›
    rw [hl]
    grind [lineHasIn, Tag.depthFrom, Tag.isClosing_of_isOpening]

theorem annotatedFrom_eq (ts : TokenList) (i d : Nat) :
    annotatedFrom ts i d = annotatedIn (ts.toList.drop i) d := by
  fun_induction annotatedFrom ts i d
  case case8 i d hi =>
    rw [drop_eq_nil hi]
    rfl
  all_goals
    obtain ⟨t, ht, hl⟩ := drop_eq_cons ‹_ < ts.size›
    rw [hl]
    grind [annotatedIn, Tag.depthFrom, Tag.isClosing_of_isOpening, Tag.isOpening, Tag.isClosing]

/-! ## What a cursor sees -/

variable {c : Cursor}

/-- The tokens from the cursor on. -/
def rest (c : Cursor) : List Token := c.tokens.toList.drop c.position

theorem currentTag_eq (c : Cursor) : c.currentTag = headTag c.rest := tagAt_eq_headTag _ _

theorem isAt_eq (c : Cursor) (t : Tag) : c.isAt t = (headTag c.rest == t) := by
  rw [isAt, currentTag_eq]

theorem peekTag_one (c : Cursor) : c.peekTag 1 = headTag (c.rest.drop 1) := by
  rw [peekTag, tagAt, tagAt_eq_headTag, rest, List.drop_drop]

theorem get?_eq (c : Cursor) (n : Nat) :
    c.tokens.get? (c.position + n) = (c.rest.drop n).head? := by
  rw [rest, List.drop_drop, List.head?_drop, TokenList.get?, TokenList.toList, Array.getElem?_toList]

theorem current_eq (c : Cursor) : c.current = headToken c.rest := by
  rw [current, headToken, List.headD_eq_head?_getD, ← List.drop_zero (l := c.rest), ← get?_eq,
    Nat.add_zero]

theorem nextSpan_eq (c : Cursor) :
    c.nextSpan = (((c.rest.drop 1).head?).map Token.span).getD (headToken c.rest).span := by
  rw [nextSpan, current_eq, get?_eq]

theorem tagPastNewlines_eq (c : Cursor) : c.tagPastNewlines = headTag (skipBreaks c.rest) := by
  rw [tagPastNewlines, skipFrom_eq, tagAt, tagAt_eq_headTag, ← List.drop_drop,
    drop_length_takeWhile]
  rfl

theorem drop_length_succ (u : List Token) (t : Token) (w : List Token) :
    (u ++ t :: w).drop (u.length + 1) = w := by
  rw [← List.singleton_append, ← List.append_assoc, List.drop_left' (by simp)]

theorem groupSplit_eq_append {ts u w : List Token} {d : Nat} (h : groupSplit ts d = some (u, w)) :
    ∃ t, ts = u ++ t :: w ∧ t.tag.isClosing = true := by
  induction ts generalizing u d with
  | nil => cases h
  | cons t ts ih =>
    simp only [groupSplit] at h
    split at h
    · cases h
      rename_i hc
      exact ⟨t, rfl, hc.1⟩
    · split at h
      · cases h
      · obtain ⟨⟨u', w'⟩, hs, e⟩ := Option.map_eq_some_iff.1 h
        cases e
        obtain ⟨t', rfl, ht'⟩ := ih hs
        exact ⟨t', rfl, ht'⟩

theorem tagAt_add (c : Cursor) (n : Nat) : c.tagAt (c.position + n) = headTag (c.rest.drop n) := by
  rw [tagAt, tagAt_eq_headTag, rest, List.drop_drop]

theorem groupFollowedBy_eq (c : Cursor) (t : Tag) : c.groupFollowedBy t = groupThen t c.rest := by
  rw [groupFollowedBy, matchingClose?, closeFrom_eq, groupThen, ← rest]
  cases h : groupSplit c.rest 0 with
  | none => rfl
  | some s =>
    obtain ⟨u, w⟩ := s
    obtain ⟨t', ht, -⟩ := groupSplit_eq_append h
    simp only [Option.map_some, Nat.add_assoc, tagAt_add]
    rw [ht, drop_length_succ]

theorem isParamList_eq (c : Cursor) : isParamList c = holdsParams c.rest := by
  rw [isParamList, matchingClose?, closeFrom_eq, holdsParams, ← rest]
  cases h : groupSplit c.rest 0 with
  | none => rfl
  | some s =>
    obtain ⟨u, w⟩ := s
    obtain ⟨t', ht, -⟩ := groupSplit_eq_append h
    have hlen : c.rest.length = c.tokens.size - c.position := by
      simp [rest, TokenList.toList, TokenList.size]
    have hle : c.position + u.length ≤ c.tokens.size := by
      rw [ht, List.length_append, List.length_cons] at hlen
      omega
    have hdrop : c.tokens.toList.drop (c.position + 1) = c.rest.drop 1 := by
      rw [rest, List.drop_drop]
    simp only [Option.map_some, containsAtDepthZero, occursFrom_eq _ _ _ _ _ hle, hdrop,
      Nat.add_assoc, tagAt_add]
    rw [ht, drop_length_succ, show c.position + u.length - (c.position + 1) = u.length - 1 by omega]
    cases u with
    | nil => simp
    | cons t u => simp

theorem isAnnotated_eq (c : Cursor) : isAnnotated c = annotatedIn c.rest 0 := annotatedFrom_eq _ _ _

theorem lineHas_eq (c : Cursor) (t : Tag) (stops : TagSet) :
    c.lineHas t stops = lineHasIn t stops c.rest 0 := lineHasFrom_eq _ _ _ _ _

theorem length_rest (c : Cursor) : c.rest.length = c.tokens.size - c.position := by
  simp [rest, TokenList.toList, TokenList.size]

theorem rest_of_position {c d : Cursor} {n : Nat} (ht : d.tokens = c.tokens)
    (hp : d.position = c.position + n) : d.rest = c.rest.drop n := by
  rw [rest, rest, ht, hp, List.drop_drop]

/-- The span before the cursor is that of the last token that it passed. -/
theorem previousSpan_of_position {c d : Cursor} {u v : List Token} (ht : d.tokens = c.tokens)
    (hp : d.position = c.position + u.length) (hr : c.rest = u ++ v) (hu : u ≠ []) :
    d.previousSpan = ((u.getLast?).map Token.span).getD .dummy := by
  have hpos : 0 < u.length := List.length_pos_iff.2 hu
  have : d.tokens.get? (d.position - 1) = u.getLast? := by
    rw [ht, hp, show c.position + u.length - 1 = c.position + (u.length - 1) by omega, get?_eq, hr,
      List.head?_drop, List.getElem?_append_left (by omega), List.getLast?_eq_getElem?]
  rw [previousSpan, if_neg (by omega), this]

theorem previousSpan_congr {c d : Cursor} (ht : d.tokens = c.tokens) (hp : d.position = c.position) :
    d.previousSpan = c.previousSpan := by
  rw [previousSpan, previousSpan, ht, hp]

end Cursor

end SolSyntax
