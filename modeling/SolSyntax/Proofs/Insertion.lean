import SolSyntax.Proofs.Fork

/-!
# A token put in

Any token may be put in at an index of a token list, with some tokens behind it that lookahead from before the index
takes for those that were there.  What it then finds is told by the tag of that token alone, so the two lists are the
sides of a `Fork`.

Principal result: `Fork.exists_fork` — the fork at an index, with a given tag on the right.
-/

namespace SolSyntax

open Grammar

/-- Some token has a given tag. -/
theorem TokenKind.exists_tag (g : Tag) : ∃ k : TokenKind, k.tag = g := by
  cases h : ofTag? g with
  | some k => exact ⟨k, tag_ofTag? h⟩
  | none =>
    cases g <;> simp only [ofTag?, reduceCtorEq] at h
    exacts [⟨.int (.decimal 0), rfl⟩, ⟨.float ⟨0, none⟩, rfl⟩, ⟨.string .empty, rfl⟩, ⟨.char 'a', rfl⟩,
      ⟨.ident .empty, rfl⟩, ⟨.symbol .empty, rfl⟩, ⟨.operator .empty, rfl⟩, ⟨.docString .empty, rfl⟩,
      ⟨.hashBang .empty, rfl⟩]

/-- A fat arrow does not come anew behind a square bracket. -/
def Common (ts : TokenList) (i : Nat) (g : Tag) : Prop :=
  g = .fatArrow → ∀ j, j + 1 = i → ts.tagAt j = .rbracket → ts.tagAt i = .fatArrow

namespace Fork

/-- A token list, and a place in it. -/
def refl (ts : TokenList) (i : Nat) (h : i < ts.size) : Fork where
  left := ts
  right := ts
  index := i
  inside := h
  same _ _ := rfl
  spans := rfl
  ahead _ _ _ _ := .inl rfl
  common e _ _ _ := e
  spaced h hne := absurd h hne

section Put

variable {ts : TokenList} {i : Nat} {t : Token} {y : List Token}

/-- The first tokens of a list, and behind them others. -/
def cut (ts : TokenList) (i : Nat) (y : List Token) : TokenList := .ofTokens (ts.toList.take i ++ y)

theorem length_take (h : i < ts.size) : (ts.toList.take i).length = i := List.length_take_of_le (Nat.le_of_lt h)

theorem drop_cut (h : i < ts.size) (y : List Token) : (cut ts i y).toList.drop i = y := by
  have hlength := length_take h
  exact (congrArg (fun n => (ts.toList.take i ++ y).drop n) hlength.symm).trans List.drop_left

theorem get?_cut_of_lt {j : Nat} (h : i < ts.size) (hj : j < i) (y : List Token) : (cut ts i y).get? j = ts.get? j := by
  have hlength := length_take h
  simp only [TokenList.get?, cut, TokenList.ofTokens, List.getElem?_toArray]
  rw [List.getElem?_append_left (by omega), List.getElem?_take_of_lt hj]
  exact Array.getElem?_toList

theorem get?_cut (h : i < ts.size) (t : Token) (y : List Token) : (cut ts i (t :: y)).get? i = some t := by
  have hlength := length_take h
  simp only [TokenList.get?, cut, TokenList.ofTokens, List.getElem?_toArray]
  rw [List.getElem?_append_right (by omega), hlength, Nat.sub_self]
  rfl

/-- **Another token at an index**, with tokens behind it that make up for those that were there. -/
def put (h : i < ts.size) (span : (ts.get? i).map Token.span = some t.span)
    (ahead : Instead t.tag (ts.toList.drop i) (t :: y))
    (common : Common ts i t.tag) (spaced : t.tag = .dot → ∃ n r, y = n :: r ∧ t.span.stop ≠ n.span.start) : Fork :=
  have htag : (cut ts i (t :: y)).tagAt i = t.tag := by rw [tagAt_eq_headTag, drop_cut h, headTag_cons]
  { left := ts
    right := cut ts i (t :: y)
    index := i
    inside := h
    same := fun _ hj => get?_cut_of_lt h hj _
    spans := by rw [get?_cut h, span]; rfl
    ahead := by rw [htag, drop_cut h]; exact ahead
    common := fun e => common (htag.symm.trans e)
    spaced := fun e _ => by
      obtain ⟨n, r, rfl, hne⟩ := spaced (htag.symm.trans e)
      have hrest : (Cursor.atIndex (cut ts i (t :: n :: r)) i).rest = t :: n :: r := drop_cut h _
      have hadjacent : Cursor.adjacent t.span n.span = false := beq_false_of_ne hne
      rw [isTightDot, Cursor.current_eq, Cursor.nextSpan_eq, hrest]
      exact (congrArg (_ && ·) hadjacent).trans (Bool.and_false _) }

end Put

/-- **Any tag may stand at an index of the right list**, but for a fat arrow that comes anew behind a bracket. -/
theorem exists_fork {ts : TokenList} {i : Nat} {g : Tag} (hT : ts.EndsInEof) (h : i < ts.size)
    (common : Common ts i g) :
    ∃ w : Fork, w.left = ts ∧ w.index = i ∧ w.tag = g ∧ w.right.EndsInEof := by
  obtain ⟨k, rfl⟩ := TokenKind.exists_tag g
  have hi : i < ts.toList.length := h
  have hend : (TokenList.ofTokens (ts.toList.drop i)).EndsInEof := by
    obtain ⟨last, hlast, hkind⟩ := hT
    refine ⟨last, ?_, hkind⟩
    show (ts.toList.drop i).getLast? = some last
    rw [List.getLast?_drop, if_neg (Nat.not_le_of_gt hi), hlast]
  obtain ⟨y, ahead, hends, hdot⟩ := exists_instead ⟨k, ts.toList[i].span, ts.toList[i].position⟩ hend
  refine ⟨put h ?_ ahead common hdot, rfl, rfl, ?_, ?_⟩
  · rw [TokenList.get?, ← Array.getElem?_toList]
    exact congrArg (Option.map Token.span) (List.getElem?_eq_getElem hi)
  · show (cut ts i _).tagAt i = k.tag
    rw [tagAt_eq_headTag, drop_cut h]
    rfl
  · obtain ⟨last, hlast, hkind⟩ := hends
    exact ⟨last, (List.getLast?_append_cons _ _ _).trans hlast, hkind⟩

end Fork

end SolSyntax
