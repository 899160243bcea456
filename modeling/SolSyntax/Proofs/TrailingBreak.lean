import SolSyntax.Proofs.FirstError
import SolSyntax.Proofs.Isolation

/-!
# A line break at the end

A module reads the same with and without a line break at its end as long as nothing in it goes wrong.
Every declaration is read, or fails, alike; but after an error a parse looks for a line break to go on
at, and the one at the end may be the one it finds.  What comes after the error is then lost.

Principal results: `Level.declLine_cases` — one declaration; `Passes.trails` — a lenient parse;
`trailing_break` — a line break at the end of a module.
-/

namespace SolSyntax

open Grammar

/-! ## Going on with a line break at the end -/

namespace Resync

variable {left right : TokenList} {v : List Token} {e n e' : Token} {i d k : Nat}

/-- The scan finds nothing where nothing is left. -/
theorem topBreakFrom_nil {tokens : TokenList} (h : tokens.toList.drop i = []) :
    topBreakFrom tokens.tagIndices k i d = none := by
  have hsize : tokens.tagIndices.size = tokens.toList.length := by
    simp [TokenList.tagIndices, TokenList.toList]
  rw [topBreakFrom, dif_neg]
  rw [hsize]
  exact Nat.not_lt.2 (List.drop_eq_nil_iff.1 h)

theorem topBreakFrom_eof {tokens : TokenList} (h : tokens.toList.drop i = [e]) (he : e.tag = .eof) :
    topBreakFrom tokens.tagIndices k i d = none := by
  rw [topBreakFrom_cons h, he]
  exact topBreakFrom_nil (drop_succ h)

/-- A scan that finds nothing may find the line break at the end instead. -/
theorem topBreakFrom_trailing (he : e.tag = .eof) (hn : n.tag = .newline) (he' : e'.tag = .eof)
    (hl : left.toList.drop i = v ++ [e]) (hr : right.toList.drop i = v ++ [n, e']) :
    (∃ j, topBreakFrom left.tagIndices k i d = some j ∧ topBreakFrom right.tagIndices k i d = some j) ∨
      topBreakFrom left.tagIndices k i d = none ∧
        (topBreakFrom right.tagIndices k i d = none ∨
          topBreakFrom right.tagIndices k i d = some (i + v.length)) := by
  induction v generalizing i d with
  | nil =>
    refine .inr ⟨topBreakFrom_eof hl he, ?_⟩
    rw [topBreakFrom_cons hr, hn]
    show (if Tag.newline = .newline ∧ d = 0 ∧ k ≤ i then some i else _) = none ∨
      (if Tag.newline = .newline ∧ d = 0 ∧ k ≤ i then some i else _) = some (i + 0)
    split
    · exact .inr rfl
    · exact .inl (topBreakFrom_eof (drop_succ hr) he')
  | cons t v ih =>
    have next := fun d => ih (d := d) (drop_succ hl) (drop_succ hr)
    rw [List.length_cons, show i + (v.length + 1) = i + 1 + v.length by omega, topBreakFrom_cons hl,
      topBreakFrom_cons hr]
    split
    · exact next _
    · split
      · exact next _
      · split
        · exact .inl ⟨i, rfl, rfl⟩
        · exact next _

theorem breakFrom_cons {tokens : TokenList} {t : Token} {r : List Token}
    (h : tokens.toList.drop i = t :: r) : breakFrom tokens.tagIndices i =
      if t.tag = .newline then some i else breakFrom tokens.tagIndices (i + 1) := by
  have hlt : i < tokens.tagIndices.size := by
    have := congrArg List.length h
    simp only [List.length_drop, List.length_cons] at this
    simp only [TokenList.tagIndices, Array.size_map]
    simp only [TokenList.toList, Array.length_toList] at this
    omega
  have htag : tokens.tagAt i = t.tag := by
    rw [tagAt_eq_headTag, h, headTag_cons]
  rw [breakFrom, if_pos hlt, isBreak_tagIndices, htag]
  by_cases ht : t.tag = .newline
  · rw [ht]
    rfl
  · rw [beq_false_of_ne ht, if_neg Bool.false_ne_true, if_neg ht]

theorem breakFrom_trailing (hn : n.tag = .newline)
    (hl : left.toList.drop i = v ++ [e]) (hr : right.toList.drop i = v ++ [n, e']) :
    (∃ j, breakFrom left.tagIndices i = some j ∧ breakFrom right.tagIndices i = some j) ∨
      breakFrom right.tagIndices i = some (i + v.length) := by
  induction v generalizing i with
  | nil =>
    refine .inr ?_
    rw [breakFrom_cons hr, if_pos hn]
    rfl
  | cons t v ih =>
    rw [List.length_cons, show i + (v.length + 1) = i + 1 + v.length by omega, breakFrom_cons hl,
      breakFrom_cons hr]
    split
    · exact .inl ⟨i, rfl, rfl⟩
    · exact ih (drop_succ hl) (drop_succ hr)

end Resync

section Resume

variable {u : List Token} {e n e' : Token} {d i : Nat}

theorem size_ofTokens_left : (TokenList.ofTokens (u ++ [e])).size = u.length + 1 := by
  simp [TokenList.size, TokenList.ofTokens]

theorem size_ofTokens_right : (TokenList.ofTokens (u ++ [n, e'])).size = u.length + 2 := by
  simp [TokenList.size, TokenList.ofTokens]

theorem endsInEof_left (he : e.tag = .eof) : (TokenList.ofTokens (u ++ [e])).EndsInEof :=
  ⟨e, List.getLast?_concat, TokenKind.eq_of_tag he rfl⟩

theorem endsInEof_right (he' : e'.tag = .eof) : (TokenList.ofTokens (u ++ [n, e'])).EndsInEof := by
  rw [List.append_cons]
  exact endsInEof_left he'

theorem drop_ofTokens (r : List Token) (h : i ≤ u.length) :
    (TokenList.ofTokens (u ++ r)).toList.drop i = u.drop i ++ r :=
  List.drop_append_of_le_length h

/-- After an error a parse goes on at the same place, or at the line break at the end. -/
theorem resyncPoint_trailing (he : e.tag = .eof) (hn : n.tag = .newline) (he' : e'.tag = .eof)
    (hd : d ≤ u.length) (hi : i ≤ u.length) :
    resyncPoint (TokenList.ofTokens (u ++ [n, e'])).tagIndices d i =
        resyncPoint (TokenList.ofTokens (u ++ [e])).tagIndices d i ∨
      resyncPoint (TokenList.ofTokens (u ++ [n, e'])).tagIndices d i = u.length := by
  have top := Resync.topBreakFrom_trailing (k := i) (d := 0) he hn he'
    (drop_ofTokens [e] hd) (drop_ofTokens [n, e'] hd)
  have next := Resync.breakFrom_trailing hn (drop_ofTokens [e] hi) (drop_ofTokens [n, e'] hi)
  rw [List.length_drop, Nat.add_sub_of_le hd] at top
  rw [List.length_drop, Nat.add_sub_of_le hi] at next
  unfold resyncPoint
  obtain ⟨j, hl, hr⟩ | ⟨hl, hr | hr⟩ := top
  · exact .inl (by rw [hl, hr])
  · rw [hl, hr]
    obtain ⟨j, hl, hr⟩ | hr := next
    · exact .inl (by rw [hl, hr])
    · exact .inr (by rw [hr])
  · exact .inr (by rw [hr])

/-- The line break at the end is the last one. -/
theorem isBreak_last (hn : n.tag = .newline) :
    Resync.isBreak (TokenList.ofTokens (u ++ [n, e'])).tagIndices u.length = true := by
  rw [isBreak_tagIndices, tagAt_eq_headTag, drop_ofTokens _ (Nat.le_refl _), List.drop_length,
    List.nil_append, headTag_cons, hn]
  rfl

theorem le_of_isBreak (he' : e'.tag = .eof)
    (h : Resync.isBreak (TokenList.ofTokens (u ++ [n, e'])).tagIndices i = true) : i ≤ u.length := by
  have hlt := Resync.lt_of_isBreak h
  have hsize : (TokenList.ofTokens (u ++ [n, e'])).tagIndices.size = u.length + 2 := by
    simp [TokenList.tagIndices, TokenList.ofTokens]
  refine Nat.le_of_not_lt fun hgt => ?_
  obtain rfl : i = u.length + 1 := by omega
  have hrest : (TokenList.ofTokens (u ++ [n, e'])).toList.drop (u.length + 1) = [e'] := by
    rw [← List.drop_drop, drop_ofTokens _ (Nat.le_refl _), List.drop_length]
    rfl
  rw [isBreak_tagIndices, tagAt_eq_headTag, hrest, headTag_cons, he'] at h
  cases h

/-- After an error behind all other line breaks a parse goes on at the one at the end. -/
theorem resyncPoint_late (hn : n.tag = .newline) (he' : e'.tag = .eof) (hd : d < u.length)
    (hlate : ∀ j, Resync.isBreak (TokenList.ofTokens (u ++ [n, e'])).tagIndices j = true → i ≤ j →
      u.length ≤ j) :
    resyncPoint (TokenList.ofTokens (u ++ [n, e'])).tagIndices d i = u.length := by
  have last : Resync.isBreak (TokenList.ofTokens (u ++ [n, e'])).tagIndices u.length = true :=
    isBreak_last hn
  have only : ∀ {j}, Resync.isBreak (TokenList.ofTokens (u ++ [n, e'])).tagIndices j = true → i ≤ j →
      j = u.length :=
    fun hb hij => Nat.le_antisymm (le_of_isBreak he' hb) (hlate _ hb hij)
  unfold resyncPoint
  split
  · rename_i j hj
    have h := Resync.topBreakFrom_spec hj
    exact only h.2.2 h.2.1
  · split
    · rename_i j hj
      have h := Resync.breakFrom_spec hj
      exact only h.2 h.1
    · rename_i hnone
      have hi : u.length < i := by
        refine Nat.lt_of_not_le fun hle => ?_
        obtain ⟨k, hk⟩ := Resync.exists_of_breakFrom hle last
        rw [hnone] at hk
        cases hk
      obtain ⟨j, hj, hle⟩ := Resync.exists_of_breakBefore hd
        (Nat.lt_min.2 ⟨hi, Resync.lt_of_isBreak last⟩) last
      rw [hj, Option.getD_some]
      exact Nat.le_antisymm (le_of_isBreak he' (Resync.breakBefore_spec hj).2.2) hle

end Resume

/-! ## One declaration -/

/-- Two runs, without and with a line break at the end, stand at the same place and have stored the
same. -/
structure Level (u : List Token) (e n e' : Token) (s t : State) : Prop where
  left : s.cursor.tokens = .ofTokens (u ++ [e])
  right : t.cursor.tokens = .ofTokens (u ++ [n, e'])
  position : t.cursor.position = s.cursor.position
  inside : s.cursor.position ≤ u.length
  arena : t.arena = s.arena
  names : t.names = s.names

namespace Level

variable {u : List Token} {e n e' : Token} {s t : State}

/-- The tokens that are left in both runs. -/
theorem rest (h : Level u e n e' s t) :
    s.cursor.rest = u.drop s.cursor.position ++ [e] ∧ t.cursor.rest = u.drop s.cursor.position ++ [n, e'] := by
  rw [Cursor.rest, Cursor.rest, h.left, h.right, h.position]
  exact ⟨drop_ofTokens _ h.inside, drop_ofTokens _ h.inside⟩

theorem of_rest {v : List Token} (hl : s.cursor.tokens = .ofTokens (u ++ [e]))
    (hr : t.cursor.tokens = .ofTokens (u ++ [n, e'])) (hs : s.cursor.rest = v ++ [e])
    (ht : t.cursor.rest = v ++ [n, e']) (ha : t.arena = s.arena) (hn : t.names = s.names) :
    Level u e n e' s t := by
  have hs := congrArg List.length hs
  have ht := congrArg List.length ht
  rw [Cursor.length_rest, hl, List.length_append, List.length_singleton, size_ofTokens_left] at hs
  rw [Cursor.length_rest, hr, List.length_append, List.length_cons, List.length_singleton,
    size_ofTokens_right] at ht
  exact ⟨hl, hr, by omega, by omega, ha, hn⟩

/-- The token before is the same. -/
theorem previousSpan (h : Level u e n e' s t) : s.cursor.previousSpan = t.cursor.previousSpan := by
  have hin := h.inside
  unfold Cursor.previousSpan
  rw [h.position]
  by_cases hp : s.cursor.position = 0
  · rw [if_pos hp, if_pos hp]
  · have hget : ∀ r : List Token, (TokenList.ofTokens (u ++ r)).get? (s.cursor.position - 1) =
        u[s.cursor.position - 1]? := by
      intro r
      rw [TokenList.get?, TokenList.ofTokens, List.getElem?_toArray, List.getElem?_append_left (by omega)]
    rw [if_neg hp, if_neg hp, h.left, h.right, hget, hget]

end Level

/-- A declaration does not reach into what cannot end one. -/
theorem Grammar.DeclRead.length_le {s s' : State} {d : Decl} {u v r : List Token} {o : Outline TokenKind}
    (h : DeclRead s s' d u o) (hs : s.cursor.rest = v ++ r)
    (hr : ∀ t ∈ r, t.tag = .newline ∨ t.tag = .eof ∨ t.tag = .dot) : r.length ≤ s'.cursor.rest.length := by
  have hsplit : u ++ s'.cursor.rest = v ++ r := h.rest.symm.trans hs
  refine Nat.le_of_not_lt fun hlt => ?_
  -- the last token of the declaration would be one of those
  obtain ⟨y, rfl, hy⟩ : ∃ y, u = v ++ y ∧ r = y ++ s'.cursor.rest := by
    obtain ⟨y, -, hs'⟩ | h := List.append_eq_append_iff.1 hsplit
    · rw [hs', List.length_append] at hlt
      omega
    · exact h
  have hne : y ≠ [] := by
    rintro rfl
    rw [hy, List.nil_append] at hlt
    exact Nat.lt_irrefl _ hlt
  have hmem : y.getLast hne ∈ r := by
    rw [hy]
    exact List.mem_append_left _ (List.getLast_mem hne)
  have hlast := h.derives.endsIn (y.getLast hne)
      (by rw [List.getLast?_append, List.getLast?_eq_some_getLast hne, Option.some_or])
  rcases hr _ hmem with ht | ht | ht <;> rw [ht] at hlast <;> cases hlast

/-- A declaration does not end where a point comes next. -/
theorem Grammar.DeclRead.length_lt {s s' : State} {d : Decl} {u v r : List Token} {o : Outline TokenKind}
    (h : DeclRead s s' d u o) (hs : s.cursor.rest = v ++ r)
    (hr : ∀ t ∈ r, t.tag = .newline ∨ t.tag = .eof ∨ t.tag = .dot) (hdot : headTag r = .dot) :
    r.length < s'.cursor.rest.length := by
  refine Nat.lt_of_le_of_ne (h.length_le hs hr) fun hlen => ?_
  have hrest : s'.cursor.rest = r := (List.append_inj' (h.rest.symm.trans hs) hlen.symm).2
  have hends := h.ends
  rw [hrest, hdot] at hends
  rcases hends with hends | hends <;> cases hends

/-- The line break at the end is the only one from an index on. -/
def IsLate (u : List Token) (n e' : Token) (i : Nat) : Prop :=
  ∀ j, Resync.isBreak (TokenList.ofTokens (u ++ [n, e'])).tagIndices j = true → i ≤ j → u.length ≤ j

namespace Level

variable {u : List Token} {e n e' : Token} {s t : State} {m m' : Nat}

theorem position_of_rest {c : Cursor} {r : List Token} {k : Nat} (h : c.tokens = .ofTokens (u ++ r))
    (hk : c.rest.length ≤ k) : u.length + r.length ≤ c.position + k := by
  have hsize : (TokenList.ofTokens (u ++ r)).size = u.length + r.length := by
    simp [TokenList.size, TokenList.ofTokens]
  rw [Cursor.length_rest, h, hsize] at hk
  omega

/-- A point is no line break. -/
theorem isLate_of_dot {tok : Token} (hu : u.getLast? = some tok) (htok : tok.tag = .dot) {i : Nat}
    (hi : u.length ≤ i + 1) : IsLate u n e' i := by
  intro j hj hij
  obtain ⟨v, rfl⟩ := List.getLast?_eq_some_iff.1 hu
  rw [List.length_append, List.length_singleton] at hi ⊢
  refine Nat.le_of_not_lt fun hlt => ?_
  obtain rfl : j = v.length := by omega
  rw [isBreak_tagIndices, tagAt_eq_headTag, List.append_assoc, drop_ofTokens _ (Nat.le_refl _),
    List.drop_length, List.nil_append, List.singleton_append, headTag_cons, htok] at hj
  cases hj

/-- The runs stand side by side; where the last token is a point that may be where the left one fails. -/
theorem aligned (h : Level u e n e' s t) (he : e.tag = .eof) (hn : n.tag = .newline) (he' : e'.tag = .eof)
    (helse : headTag (skipBreaks [n, e']) ≠ .kwElse) {v : List Token} (hv : u.drop s.cursor.position = v) :
    Aligned (.cut he hn helse v.length (v.getLast?.any (·.tag == .dot))) 0 v s t := by
  obtain ⟨hs, ht⟩ := hv ▸ h.rest
  refine ⟨hs, ht, fun _ hb => absurd ⟨e, n, e', he, hn, he', rfl, rfl⟩ hb, fun _ => h.previousSpan,
    fun _ hp tok htok hdot => ?_, ?_⟩
  · simp [Window.cut, htok, hdot] at hp
  · rintro _ ⟨⟩
    exact ⟨h.names, by rw [h.arena, Arena.behind_empty], Nat.le_refl _, fun _ => h.previousSpan.symm⟩

/-- Both runs read the same declaration, or both fail: at the same place, or where the line break at the
end is the only one that is left. -/
theorem declLine_cases (h : Level u e n e' s t) (he : e.tag = .eof) (hn : n.tag = .newline)
    (he' : e'.tag = .eof) (hm : u.length + 1 ≤ m) (hm' : u.length + 2 ≤ m') :
    (∃ d s' t', declLine (rules m) s = .ok d s' ∧ declLine (rules m') t = .ok d t' ∧
        Level u e n e' s' t') ∨
      ∃ x x' s' t', declLine (rules m) s = .error (.error x) s' ∧
        declLine (rules m') t = .error (.error x') t' ∧
        (Level u e n e' s' t' ∨ IsLate u n e' s'.cursor.position ∧ IsLate u n e' t'.cursor.position) := by
  obtain ⟨hs, ht⟩ := h.rest
  generalize hv : u.drop s.cursor.position = v at hs ht
  have hvu : v.length ≤ u.length := by
    rw [← hv, List.length_drop]
    exact Nat.sub_le _ _
  have helse : headTag (skipBreaks [n, e']) ≠ .kwElse := by
    rw [skipBreaks_cons hn, skipBreaks_eq_self] <;> rw [headTag_cons, he'] <;> decide
  have meets := declLine_agrees (k := v.length) (rules_agree (show _ ≤ m by omega) (show _ ≤ m' by omega))
    (h.aligned he hn he' helse hv) (Nat.lt_succ_self _)
  have onward := Forward.onward (p := declLine (rules m)) s
  have onward' := Forward.onward (p := declLine (rules m')) t
  have either := Grammar.declLine_cases (s := s) (show _ ≤ m by rw [hs]; simp; omega)
  have either' := Grammar.declLine_cases (s := t) (show _ ≤ m' by rw [ht]; simp; omega)
  generalize declLine (rules m) s = r at meets onward either ⊢
  generalize declLine (rules m') t = r' at meets onward' either' ⊢
  have hleft : (final r).cursor.tokens = .ofTokens (u ++ [e]) := onward.cursor.tokens.trans h.left
  have hright : (final r').cursor.tokens = .ofTokens (u ++ [n, e']) := onward'.cursor.tokens.trans h.right
  have level : ∀ {w v'}, (final r).cursor.rest = v' ++ [e] → (final r').cursor.rest = v' ++ [n, e'] →
      (∀ base, some Arena.empty = some base → Twins w v' base (final r) (final r')) →
      Level u e n e' (final r) (final r') := by
    intro w v' hl hr twins
    obtain ⟨hnames, harena, -, -⟩ := twins .empty rfl
    exact .of_rest hleft hright hl hr (harena.trans (Arena.behind_empty _)) hnames
  cases meets with
  | @ok d d' s' t' hq =>
    obtain ⟨hsame, x, v', o, -, -, -, b⟩ := hq
    obtain rfl : d' = d := (hsame .empty rfl).trans (relocate_zero d)
    exact .inl ⟨d', s', t', rfl, rfl, level b.aligned.left b.aligned.right b.aligned.twins⟩
  | @error x x' s' t' v' _ _ hl hr twins =>
    exact .inr ⟨x, x', s', t', rfl, rfl, .inl (level hl hr twins)⟩
  | line hw =>
    rw [show e.tag = .newline from hw] at he
    cases he
  | ended hw hl hr hst =>
    obtain ⟨d, s', x, o, rfl, -⟩ | ⟨x, s', rfl⟩ := either
    · exact hst.2.elim
    obtain ⟨d, t', y, o, rfl, read⟩ | ⟨x', t', rfl⟩ := either'
    · have := read.length_le ht (by simp [hn, he'])
      exact absurd hr (Nat.not_lt.2 this)
    · have hpos : u.length + 1 ≤ s'.cursor.position + 1 := position_of_rest hleft hl
      have hpos' : u.length + 2 ≤ t'.cursor.position + 1 := position_of_rest hright (Nat.le_of_lt_succ hr)
      have late : ∀ {i}, u.length ≤ i → IsLate u n e' i := fun hi j _ hij => Nat.le_trans hi hij
      exact .inr ⟨x, x', s', t', rfl, rfl, .inr ⟨late (by omega), late (by omega)⟩⟩
  | point hw hp hl hr =>
    obtain ⟨tok, hlast, hdot⟩ : ∃ tok, v.getLast? = some tok ∧ tok.tag = .dot := by
      simpa [Window.cut, Option.any_eq_true] using hp
    obtain ⟨v₀, rfl⟩ := List.getLast?_eq_some_iff.1 hlast
    rw [List.append_assoc] at hs ht
    obtain ⟨d, s', x, o, rfl, read⟩ | ⟨x, s', rfl⟩ := either
    · have := read.length_lt hs (by simp [hdot, he]) hdot
      exact absurd hl (Nat.not_le.2 this)
    obtain ⟨d, t', y, o, rfl, read⟩ | ⟨x', t', rfl⟩ := either'
    · have := read.length_lt ht (by simp [hdot, hn, he']) hdot
      exact absurd hr (Nat.not_le.2 this)
    · have hlast' : u.getLast? = some tok := by
        rw [← hv, List.getLast?_drop] at hlast
        split at hlast
        · cases hlast
        · exact hlast
      have hpos : u.length + 1 ≤ s'.cursor.position + 2 := position_of_rest hleft hl
      have hpos' : u.length + 2 ≤ t'.cursor.position + 3 := position_of_rest hright hr
      exact .inr ⟨x, x', s', t', rfl, rfl,
        .inr ⟨isLate_of_dot hlast' hdot (by omega), isLate_of_dot hlast' hdot (by omega)⟩⟩

/-- Of two runs that go on after an error, both do so at the same place, or the second one at the line
break at the end. -/
theorem recover_cases (hs : s.cursor.tokens = .ofTokens (u ++ [e]))
    (ht : t.cursor.tokens = .ofTokens (u ++ [n, e'])) (he : e.tag = .eof) (hn : n.tag = .newline)
    (he' : e'.tag = .eof) {d : Nat} (hd : d < u.length)
    (hin : resyncPoint (TokenList.ofTokens (u ++ [e])).tagIndices d s.cursor.position ≤ u.length)
    (h : Level u e n e' s t ∨ IsLate u n e' s.cursor.position ∧ IsLate u n e' t.cursor.position) :
    Level u e n e' (recover (TokenList.ofTokens (u ++ [e])).tagIndices d s)
        (recover (TokenList.ofTokens (u ++ [n, e'])).tagIndices d t) ∧
        resyncPoint (TokenList.ofTokens (u ++ [n, e'])).tagIndices d s.cursor.position =
          resyncPoint (TokenList.ofTokens (u ++ [e])).tagIndices d s.cursor.position ∨
      (recover (TokenList.ofTokens (u ++ [n, e'])).tagIndices d t).cursor.rest = [n, e'] ∧
        resyncPoint (TokenList.ofTokens (u ++ [n, e'])).tagIndices d s.cursor.position = u.length := by
  have hsize : s.cursor.tokens.size = u.length + 1 := by rw [hs, size_ofTokens_left]
  have hsize' : t.cursor.tokens.size = u.length + 2 := by rw [ht, size_ofTokens_right]
  have last : resyncPoint (TokenList.ofTokens (u ++ [n, e'])).tagIndices d t.cursor.position = u.length →
      (recover (TokenList.ofTokens (u ++ [n, e'])).tagIndices d t).cursor.rest = [n, e'] := by
    intro hk
    rw [Cursor.rest, position_recover hk (by omega), show (recover _ d t).cursor.tokens = _ from ht,
      drop_ofTokens _ (Nat.le_refl _), List.drop_length, List.nil_append]
  rcases h with level | ⟨hlate, hlate'⟩
  · rcases resyncPoint_trailing he hn he' (Nat.le_of_lt hd) level.inside with hk | hk
    · have hpos := position_recover (s := s) rfl (Nat.lt_of_le_of_lt hin (by omega))
      rw [← level.position] at hk
      have hpos' := position_recover hk (Nat.lt_of_le_of_lt (level.position ▸ hin) (by omega))
      rw [level.position] at hk hpos'
      exact .inl ⟨⟨hs, ht, hpos'.trans hpos.symm, hpos ▸ hin, level.arena, level.names⟩, hk⟩
    · exact .inr ⟨last (level.position ▸ hk), hk⟩
  · exact .inr ⟨last (resyncPoint_late hn he' hd hlate'), resyncPoint_late hn he' hd hlate⟩

/-- Where something is left both runs skip the same line breaks. -/
theorem skipped (h : Level u e n e' s t) (hne : skipBreaks (u.drop s.cursor.position) ≠ []) :
    Level u e n e' (Grammar.skipped s) (Grammar.skipped t) := by
  obtain ⟨hs, ht⟩ := h.rest
  refine .of_rest (v := skipBreaks (u.drop s.cursor.position)) h.left h.right ?_ ?_ h.arena h.names
  · rw [rest_skipped, hs, skipBreaks_append_ite, if_neg hne]
  · rw [rest_skipped, ht, skipBreaks_append_ite, if_neg hne]

end Level

section AtEnd

variable {u v r : List Token} {e n e' : Token} {s : State}

/-- The loop is at its end just if only line breaks are left. -/
theorem isAtEnd_skipped_iff (hs : s.cursor.rest = v ++ r) (hv : ∀ t ∈ v, t.tag ≠ .eof)
    (hr : headTag (skipBreaks r) = .eof) : (skipped s).cursor.isAtEnd = true ↔ AllBreaks v := by
  rw [isAtEnd_eq, rest_skipped, hs]
  constructor
  · intro h
    refine allBreaks_of_stop ?_ hv
    by_cases hnil : skipBreaks v = []
    · exact .inl hnil
    · rw [skipBreaks_append_ite, if_neg hnil, headTag_append hnil] at h
      exact .inr (eq_of_beq h)
  · intro h
    rw [skipBreaks_append h, hr]
    rfl

theorem isAtEnd_skipped_left (hu : ∀ t ∈ u, t.tag ≠ .eof) (he : e.tag = .eof)
    (hs : s.cursor.tokens = .ofTokens (u ++ [e])) (hin : s.cursor.position ≤ u.length) :
    (skipped s).cursor.isAtEnd = true ↔ AllBreaks (u.drop s.cursor.position) := by
  refine isAtEnd_skipped_iff (r := [e]) ?_ (fun t ht => hu t (List.mem_of_mem_drop ht)) ?_
  · rw [Cursor.rest, hs, drop_ofTokens _ hin]
  · rw [skipBreaks_eq_self] <;> rw [headTag_cons, he]
    decide

theorem isAtEnd_skipped_right (hv : ∀ t ∈ v, t.tag ≠ .eof) (hn : n.tag = .newline) (he' : e'.tag = .eof)
    (hs : s.cursor.rest = v ++ [n, e']) : (skipped s).cursor.isAtEnd = true ↔ AllBreaks v := by
  refine isAtEnd_skipped_iff hs hv ?_
  rw [skipBreaks_cons hn, skipBreaks_eq_self] <;> rw [headTag_cons, he']
  decide

end AtEnd

/-! ## A lenient parse -/

/-- From a state on the loop recovers from an error at `i` in a declaration that starts at `d`. -/
inductive Recovers (r : Rules) (tags : Array Nat) : State → Nat → Nat → Prop
  | here {s s' e} : (skipped s).cursor.isAtEnd = false →
      declLine r (skipped s) = .error (.error e) s' →
      Recovers r tags s (skipped s).cursor.position s'.cursor.position
  | later {s s' p d i} : Passed r tags s p s' → Recovers r tags s' d i → Recovers r tags s d i

/-- A line break at the end makes no difference to a recovery: that goes on where it would without, or
where only line breaks are left. -/
def Steady (u : List Token) (e n e' : Token) (d i : Nat) : Prop :=
  resyncPoint (TokenList.ofTokens (u ++ [n, e'])).tagIndices d i =
      resyncPoint (TokenList.ofTokens (u ++ [e])).tagIndices d i ∨
    AllBreaks (u.drop (resyncPoint (TokenList.ofTokens (u ++ [e])).tagIndices d i))

section Recovers

variable {r : Rules} {tags : Array Nat} {s s' t : State} {d i : Nat} {ps : List Pass}

theorem Recovers.not_end (h : Recovers r tags s d i) : (skipped s).cursor.isAtEnd = false := by
  cases h with
  | here hend => exact hend
  | later hp => exact hp.not_end

theorem forall_recovers_read {x : Decl} {P : Nat → Nat → Prop} (hend : (skipped s).cursor.isAtEnd = false)
    (hx : declLine r (skipped s) = .ok x s') :
    (∀ d i, Recovers r tags s d i → P d i) ↔ ∀ d i, Recovers r tags s' d i → P d i := by
  refine ⟨fun h d i hr => h d i (.later (.read hend hx) hr), fun h d i hr => ?_⟩
  cases hr with
  | here _ he =>
    rw [hx] at he
    cases he
  | later hp hr =>
    obtain ⟨rfl, rfl⟩ := hp.eq_read hx
    exact h d i hr

theorem forall_recovers_error {x : SyntaxError} {P : Nat → Nat → Prop}
    (hend : (skipped s).cursor.isAtEnd = false) (hx : declLine r (skipped s) = .error (.error x) s') :
    (∀ d i, Recovers r tags s d i → P d i) ↔ P (skipped s).cursor.position s'.cursor.position ∧
      ∀ d i, Recovers r tags (recover tags (skipped s).cursor.position s') d i → P d i := by
  refine ⟨fun h => ⟨h _ _ (.here hend hx), fun d i hr => h d i (.later (.resumed hend hx) hr)⟩, ?_⟩
  rintro ⟨hhere, hlater⟩ d i hr
  cases hr with
  | here _ he =>
    rw [hx] at he
    cases he
    exact hhere
  | later hp hr =>
    obtain ⟨rfl, rfl⟩ := hp.eq_resumed hx
    exact hlater d i hr

/-- Passes that read nothing and take down no error are at the end. -/
theorem Passes.empty_iff (h : Passes r tags s ps t) :
    (readIn ps = [] ∧ errorsIn ps = []) ↔ (skipped s).cursor.isAtEnd = true := by
  cases h with
  | ended hend => exact ⟨fun _ => hend, fun _ => ⟨rfl, rfl⟩⟩
  | @next _ _ _ p ps hp _ =>
    refine ⟨fun ⟨hread, herr⟩ => ?_, fun hend => ?_⟩
    · have := hp.adds ps
      rw [hread, herr] at this
      cases this
    · rw [hp.not_end] at hend
      cases hend

end Recovers

/-- What the passes `qs` of a parse with a line break at the end have in common with the passes `ps` of
the one without; `steady` says when nothing is lost. -/
structure Trails (steady : Prop) (ps qs : List Pass) (f g : State) : Prop where
  read : readIn qs <+: readIn ps
  errors : (errorsIn qs).length ≤ (errorsIn ps).length
  views : ∀ d ∈ readIn qs, ∀ names, g.arena.read names d.view = f.arena.read names d.view
  clean : errorsIn ps = [] ∨ errorsIn qs = [] →
    errorsIn qs = errorsIn ps ∧ readIn qs = readIn ps ∧ g.arena = f.arena ∧ g.names = f.names
  complete : (readIn qs = readIn ps ∧ (errorsIn qs).length = (errorsIn ps).length) ↔ steady

namespace Trails

variable {steady : Prop} {ps qs : List Pass} {f g : State} {d : Decl} {x x' : SyntaxError}
  {i i' j j' k k' l l' : Nat}

theorem cons_read (h : Trails steady ps qs f g)
    (hd : ∀ names, g.arena.read names d.view = f.arena.read names d.view) :
    Trails steady (⟨i, j, .read d⟩ :: ps) (⟨i', j', .read d⟩ :: qs) f g := by
  refine ⟨?_, h.errors, ?_, fun hclean => ?_, ?_⟩
  · exact List.cons_prefix_cons.2 ⟨rfl, h.read⟩
  · intro d' hd'
    rcases List.mem_cons.1 (readIn_cons_read ▸ hd') with rfl | hd'
    · exact hd
    · exact h.views d' hd'
  · obtain ⟨herr, hread, hstate⟩ := h.clean hclean
    exact ⟨herr, congrArg (d :: ·) hread, hstate⟩
  · rw [readIn_cons_read, readIn_cons_read, List.cons.injEq, errorsIn_cons_read, errorsIn_cons_read,
      ← h.complete]
    simp

theorem cons_resumed (h : Trails steady ps qs f g) :
    Trails steady (⟨i, j, .resumed x k⟩ :: ps) (⟨i', j', .resumed x' k'⟩ :: qs) f g where
  read := h.read
  errors := Nat.succ_le_succ h.errors
  views := h.views
  clean := by
    rintro (hclean | hclean) <;> cases hclean
  complete := by
    rw [← h.complete, errorsIn_cons_resumed, errorsIn_cons_resumed, List.length_cons, List.length_cons,
      Nat.succ_inj]
    rfl

/-- The second parse ends after an error. -/
theorem lost (h : (readIn ps = [] ∧ errorsIn ps = []) ↔ steady) :
    Trails steady (⟨i, j, .resumed x k⟩ :: ps) [⟨i', j', .resumed x' k'⟩, ⟨l, l', .ended⟩] f g where
  read := List.nil_prefix
  errors := Nat.succ_le_succ (Nat.zero_le _)
  views := by
    intro d hd
    cases hd
  clean := by
    rintro (hclean | hclean) <;> cases hclean
  complete := by
    rw [← h, errorsIn_cons_resumed, errorsIn_cons_resumed, List.length_cons, List.length_cons,
      Nat.succ_inj]
    show [] = readIn ps ∧ 0 = (errorsIn ps).length ↔ _
    rw [eq_comm, eq_comm (a := 0), List.length_eq_zero_iff]

end Trails

section Passes

variable {u : List Token} {e n e' : Token} {s t f g : State} {m m' : Nat} {ps qs : List Pass}

theorem steady_iff {d i : Nat}
    (h : resyncPoint (TokenList.ofTokens (u ++ [n, e'])).tagIndices d i = u.length) :
    Steady u e n e' d i ↔
      AllBreaks (u.drop (resyncPoint (TokenList.ofTokens (u ++ [e])).tagIndices d i)) := by
  refine ⟨?_, .inr⟩
  rintro (hk | hk)
  · rw [← hk, h, List.drop_length]
    exact fun t ht => by cases ht
  · exact hk

/-- What both runs have read is the same whatever they store after it. -/
theorem Level.read_eq (h : Level u e n e' s t) {s₀ : State} {d : Decl} (hs : s₀.cursor.rest.length ≤ m)
    (hd : declLine (rules m) s₀ = .ok d s) (hf : s.arena.Kept f.arena) (hg : t.arena.Kept g.arena)
    (names : Interner) : g.arena.read names d.view = f.arena.read names d.view := by
  obtain ⟨x, o, read⟩ := DeclRead.of_ok hs hd
  rw [h.arena] at hg
  exact (List.cons.inj (read.grew.stores.read_eq hg hf names)).1

/-- What is left behind a recovery at the line break at the end is what makes the difference. -/
theorem Passes.empty_iff_steady (hu : ∀ t ∈ u, t.tag ≠ .eof) (he : e.tag = .eof)
    (hs : s.cursor.tokens = .ofTokens (u ++ [e])) {d : Nat}
    (hin : resyncPoint (TokenList.ofTokens (u ++ [e])).tagIndices d s.cursor.position ≤ u.length)
    (hk : resyncPoint (TokenList.ofTokens (u ++ [n, e'])).tagIndices d s.cursor.position = u.length)
    (hp : Passes (rules m) (TokenList.ofTokens (u ++ [e])).tagIndices
      (recover (TokenList.ofTokens (u ++ [e])).tagIndices d s) ps f) :
    (readIn ps = [] ∧ errorsIn ps = []) ↔ Steady u e n e' d s.cursor.position ∧
      ∀ d' i, Recovers (rules m) (TokenList.ofTokens (u ++ [e])).tagIndices
        (recover (TokenList.ofTokens (u ++ [e])).tagIndices d s) d' i → Steady u e n e' d' i := by
  have hpos : (recover (TokenList.ofTokens (u ++ [e])).tagIndices d s).cursor.position = _ :=
    position_recover rfl (by rw [hs, size_ofTokens_left]; exact Nat.lt_succ_of_le hin)
  have atEnd := isAtEnd_skipped_left hu he (s := recover (TokenList.ofTokens (u ++ [e])).tagIndices d s)
    hs (by rwa [hpos])
  rw [hp.empty_iff, steady_iff hk, ← hpos, ← atEnd]
  refine ⟨fun hend => ⟨hend, fun d' i hr => ?_⟩, And.left⟩
  rw [hr.not_end] at hend
  cases hend

/-- A line break at the end makes no difference to the passes up to the first recovery that finds it,
and the passes end there. -/
theorem Passes.trails (hu : ∀ t ∈ u, t.tag ≠ .eof) (he : e.tag = .eof) (hn : n.tag = .newline)
    (he' : e'.tag = .eof) (hm : (TokenList.ofTokens (u ++ [e])).size ≤ m)
    (hm' : (TokenList.ofTokens (u ++ [n, e'])).size ≤ m')
    (hp : Passes (rules m) (TokenList.ofTokens (u ++ [e])).tagIndices s ps f)
    (hq : Passes (rules m') (TokenList.ofTokens (u ++ [n, e'])).tagIndices t qs g)
    (level : Level u e n e' s t) :
    Trails (∀ d i, Recovers (rules m) (TokenList.ofTokens (u ++ [e])).tagIndices s d i →
      Steady u e n e' d i) ps qs f g := by
  have hu' : ∀ i, ∀ t ∈ u.drop i, t.tag ≠ .eof := fun i t ht => hu t (List.mem_of_mem_drop ht)
  induction hp generalizing t qs with
  | @ended s hend =>
    have hbreaks := (isAtEnd_skipped_left hu he level.left level.inside).1 hend
    obtain ⟨rfl, rfl⟩ := hq.eq_ended ((isAtEnd_skipped_right (hu' _) hn he' level.rest.2).2 hbreaks)
    refine ⟨List.prefix_refl _, Nat.le_refl _, fun d hd => (by cases hd),
      fun _ => ⟨rfl, rfl, level.arena, level.names⟩, fun _ d i h => ?_, fun _ => ⟨rfl, rfl⟩⟩
    rw [h.not_end] at hend
    cases hend
  | @next s s' f p ps hp hps ih =>
    have hend := hp.not_end
    have hne : ¬AllBreaks (u.drop s.cursor.position) := by
      rw [← isAtEnd_skipped_left hu he level.left level.inside, hend]
      decide
    have next := level.skipped fun hnil => hne (allBreaks_of_stop (.inl hnil) (hu' _))
    have handed := (hp.progressed (endsInEof_left he) hm level.left).handed
    have hlt := declStart_lt (endsInEof_left he) next.left hend
    rw [size_ofTokens_left] at handed hlt
    have hend' : (skipped t).cursor.isAtEnd = false :=
      Bool.eq_false_iff.2 fun h => hne ((isAtEnd_skipped_right (hu' _) hn he' level.rest.2).1 h)
    obtain ⟨d, s₁, t₁, hd, hd', after⟩ | ⟨x, x', s₁, t₁, hx, hx', stand⟩ :=
      next.declLine_cases he hn he' (size_ofTokens_left ▸ hm) (size_ofTokens_right ▸ hm')
    · obtain ⟨rfl, rfl⟩ := hp.eq_read hd
      obtain ⟨qs, rfl, hqs⟩ := hq.eq_read hend' hd'
      rw [forall_recovers_read hend hd]
      exact (ih hqs after).cons_read <|
        after.read_eq (length_rest_le hm next.left) hd (hps.kept hm after.left) (hqs.kept hm' after.right)
    · obtain ⟨rfl, rfl⟩ := hp.eq_resumed hx
      obtain ⟨qs, rfl, hqs⟩ := hq.eq_resumed hend' hx'
      have onward := Forward.onward (p := declLine (rules m)) (skipped s)
      have onward' := Forward.onward (p := declLine (rules m')) (skipped t)
      rw [hx] at onward
      rw [hx'] at onward'
      have hl := onward.cursor.tokens.trans next.left
      have hr := onward'.cursor.tokens.trans next.right
      have hin := Nat.le_of_lt_succ (handed _ _ rfl)
      rw [forall_recovers_error hend hx]
      rw [next.position] at hqs
      obtain ⟨after, hk⟩ | ⟨hrest, hk⟩ :=
        Level.recover_cases hl hr he hn he' (Nat.lt_of_succ_lt_succ hlt) hin stand
      · rw [and_iff_right (.inl hk)]
        exact (ih hqs after).cons_resumed
      · have nothing : ∀ {P : Token → Prop}, ∀ t ∈ ([] : List Token), P t := fun _ ht => by cases ht
        obtain ⟨rfl, rfl⟩ := hqs.eq_ended ((isAtEnd_skipped_right nothing hn he' hrest).2 nothing)
        exact .lost (hps.empty_iff_steady hu he hl hin hk)

end Passes

/-! ## Whole modules -/

section Parse

variable {u : List Token} {e n e' : Token}

/-- Both parses take the same `#!` line. -/
theorem takeHashBang_level (names : Interner) (he : e.tag = .eof) (hn : n.tag = .newline) :
    (takeHashBang (.start (.ofTokens (u ++ [n, e'])) names)).1 =
        (takeHashBang (.start (.ofTokens (u ++ [e])) names)).1 ∧
      Level u e n e' (takeHashBang (.start (.ofTokens (u ++ [e])) names)).2
        (takeHashBang (.start (.ofTokens (u ++ [n, e'])) names)).2 := by
  have hs : (State.start (.ofTokens (u ++ [e])) names).cursor.rest = u ++ [e] := rfl
  have ht : (State.start (.ofTokens (u ++ [n, e'])) names).cursor.rest = u ++ [n, e'] := rfl
  obtain ⟨x, v, s', t', text, hu, hs', ht', ms, mt⟩ :=
    takeHashBang_beside (by rw [headTag_cons, he]; decide) (by rw [headTag_cons, hn]; decide) hs ht
  rw [hs', ht']
  refine ⟨rfl, ms.tokens, mt.tokens, mt.position.trans ms.position.symm, ?_, mt.arena.trans ms.arena.symm,
    mt.names.trans ms.names.symm⟩
  rw [ms.position, hu, List.length_append]
  show 0 + _ ≤ _
  omega

/-- **A line break at the end makes no difference to a strict parse.**  After an error a lenient parse may
go on at that line break and then reads nothing more; up to there it reads the same.  It loses nothing just
if each recovery of the parse without the line break goes on where it would with it, or where only line
breaks are left. -/
theorem trailing_break (hu : ∀ t ∈ u, t.tag ≠ .eof) (he : e.tag = .eof) (hn : n.tag = .newline)
    (he' : e'.tag = .eof) (names : Interner) :
    (∀ out names', parse (.ofTokens (u ++ [n, e'])) names .strict = (.ok out, names') ↔
      parse (.ofTokens (u ++ [e])) names .strict = (.ok out, names')) ∧
    ∃ out out' names₁ names₂, parse (.ofTokens (u ++ [e])) names .lenient = (.ok out, names₁) ∧
      parse (.ofTokens (u ++ [n, e'])) names .lenient = (.ok out', names₂) ∧
      out'.module.hashBang = out.module.hashBang ∧ out'.module.decls <+: out.module.decls ∧
      (∀ more, out'.outlines more <+: out.outlines more) ∧ out'.errors.length ≤ out.errors.length ∧
      (((∀ more, out'.outlines more = out.outlines more) ∧ out'.errors.length = out.errors.length) ↔
        ∀ d i, Recovers (rules (u.length + 2)) (TokenList.ofTokens (u ++ [e])).tagIndices
          (takeHashBang (.start (.ofTokens (u ++ [e])) names)).2 d i → Steady u e n e' d i) := by
  obtain ⟨ps, f, hps, hlen⟩ := exists_passes_start names (endsInEof_left (u := u) he)
  obtain ⟨qs, g, hqs, hlen'⟩ := exists_passes_start names (endsInEof_right (u := u) (n := n) he')
  obtain ⟨hbang, level⟩ : _ ∧ Level u e n e' _ _ := takeHashBang_level names he hn
  have trails := hps.trails hu he hn he' (Nat.le_succ _) (Nat.le_succ _) hqs level
  constructor
  · intro out names'
    cases herr : errorsIn ps with
    | nil =>
      obtain ⟨herr', hread, harena, hnames⟩ := trails.clean (.inl herr)
      rw [hps.parse_strict_eq hlen herr, hqs.parse_strict_eq hlen' (herr'.trans herr), hbang, hread, harena,
        herr', hnames]
    | cons x xs =>
      obtain ⟨names₁, hx⟩ := hps.parse_strict_first hlen herr
      cases herr' : errorsIn qs with
      | nil =>
        rw [← (trails.clean (.inr herr')).1, herr'] at herr
        cases herr
      | cons y ys =>
        obtain ⟨names₂, hy⟩ := hqs.parse_strict_first hlen' herr'
        rw [hx, hy]
        constructor <;> rintro ⟨⟩
  · have outlines : ∀ more, (readIn qs).map (fun d => g.arena.read more d.view) =
        (readIn qs).map fun d => f.arena.read more d.view :=
      fun more => List.map_congr_left fun d hd => trails.views d hd more
    refine ⟨_, _, _, _, hps.parse_eq hlen, hqs.parse_eq hlen', hbang, trails.read, ?_, trails.errors, ?_⟩
    · intro more
      rw [ParseOutput.outlines, ParseOutput.outlines, outlines more]
      exact trails.read.map _
    · rw [size_ofTokens_left] at trails
      rw [← trails.complete, and_congr_left_iff]
      refine fun _ => ⟨fun h => trails.read.eq_of_length ?_, fun hread more => ?_⟩
      · simpa [ParseOutput.outlines] using congrArg List.length (h names)
      · rw [ParseOutput.outlines, ParseOutput.outlines, outlines more, hread]

end Parse

/-! ## An open bracket -/

/-- Two lines, with a bracket in the first that nothing closes. -/
def openTuple : List Token :=
  clauseLine [.lparen, .ident .empty] ++ lineBreak :: clauseLine [.ident .empty]

/-- A strict parse of two lines with an open bracket fails with and without a line break at the end; a
lenient one loses the second line if a recovery finds that line break. -/
theorem open_tuple_trailing_break :
    let e : Token := ⟨.eof, .dummy, .first⟩
    (∀ t ∈ openTuple, t.tag ≠ .eof) ∧ e.tag = .eof ∧ lineBreak.tag = .newline ∧
    (∀ out names', parse (.ofTokens (openTuple ++ [lineBreak, e])) .new .strict = (.ok out, names') ↔
      parse (.ofTokens (openTuple ++ [e])) .new .strict = (.ok out, names')) ∧
    ∃ out out' names₁ names₂, parse (.ofTokens (openTuple ++ [e])) .new .lenient = (.ok out, names₁) ∧
      parse (.ofTokens (openTuple ++ [lineBreak, e])) .new .lenient = (.ok out', names₂) ∧
      out'.module.hashBang = out.module.hashBang ∧ out'.module.decls <+: out.module.decls ∧
      (∀ more, out'.outlines more <+: out.outlines more) ∧ out'.errors.length ≤ out.errors.length ∧
      (((∀ more, out'.outlines more = out.outlines more) ∧ out'.errors.length = out.errors.length) ↔
        ∀ d i, Recovers (rules (openTuple.length + 2)) (TokenList.ofTokens (openTuple ++ [e])).tagIndices
          (takeHashBang (.start (.ofTokens (openTuple ++ [e])) .new)).2 d i →
          Steady openTuple e lineBreak e d i) := by
  intro e
  have plain : ∀ t ∈ openTuple, t.tag ≠ .eof := by decide
  exact ⟨plain, rfl, rfl, trailing_break plain rfl rfl rfl .new⟩

/-- The second of two lines with an open bracket in the first is lost with a line break at its end: that
such a line break never makes a difference is not so. -/
theorem open_tuple_line_lost :
    ¬∀ names u e n e', (∀ t ∈ u, t.tag ≠ .eof) → e.tag = .eof → n.tag = .newline → e'.tag = .eof →
      (∀ out names', parse (.ofTokens (u ++ [n, e'])) names .strict = (.ok out, names') ↔
        parse (.ofTokens (u ++ [e])) names .strict = (.ok out, names')) ∧
      ∀ out out' names₁ names₂, parse (.ofTokens (u ++ [e])) names .lenient = (.ok out, names₁) →
        parse (.ofTokens (u ++ [n, e'])) names .lenient = (.ok out', names₂) →
        (∀ more, out'.outlines more = out.outlines more) ∧ out'.errors.length = out.errors.length := by
  intro h
  have check : (match parse (.ofTokens (openTuple ++ [⟨.eof, .dummy, .first⟩])) .new .lenient,
        parse (.ofTokens (openTuple ++ [lineBreak, ⟨.eof, .dummy, .first⟩])) .new .lenient with
      | (.ok out, _), (.ok out', _) => out.module.decls.length == 1 && out'.module.decls.length == 0
      | _, _ => false) = true := by
    decide +kernel
  have lenient := (h .new openTuple ⟨.eof, .dummy, .first⟩ lineBreak ⟨.eof, .dummy, .first⟩ (by decide) rfl
    rfl rfl).2
  generalize parse (.ofTokens (openTuple ++ [⟨.eof, .dummy, .first⟩])) .new .lenient = run at check lenient
  generalize parse (.ofTokens (openTuple ++ [lineBreak, ⟨.eof, .dummy, .first⟩])) .new .lenient = run'
    at check lenient
  obtain ⟨_ | out, names₁⟩ := run
  · cases check
  obtain ⟨_ | out', names₂⟩ := run'
  · cases check
  rw [Bool.and_eq_true, beq_iff_eq, beq_iff_eq] at check
  have hlen := congrArg List.length ((lenient out out' names₁ names₂ rfl rfl).1 .new)
  rw [ParseOutput.outlines, ParseOutput.outlines, List.length_map, List.length_map, check.1, check.2] at hlen
  cases hlen

end SolSyntax
