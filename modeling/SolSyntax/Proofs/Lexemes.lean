import SolSyntax.Lexing.Lexer
import SolSyntax.Proofs.Storage

/-!
# What the lexer puts into a token list

The list ends in `eof`, which stands nowhere else, and the name of an operator spells no reserved
operator.

Principal results: `lex_sound` — both of a whole source.
-/

namespace SolSyntax

/-- A token of the lexer: it is no end, and an operator is neither `|` nor `.`. -/
structure TokenKind.Sound (names : Interner) (k : TokenKind) : Prop where
  ne_eof : k ≠ .eof
  operator : ∀ n, k = .operator n → ∃ text : String, names.strings[n.index]? = some text ∧
    TokenKind.reservedOperator? text = none

namespace TokenKind.Sound

variable {names more : Interner} {k : TokenKind}

theorem mono (h : k.Sound names) (hn : names.Kept more) : k.Sound more :=
  ⟨h.ne_eof, fun n hk =>
    have ⟨text, hs, ht⟩ := h.operator n hk
    ⟨text, hn _ _ hs, ht⟩⟩

/-- A token that is no end and no operator. -/
theorem of_tag (h : k.tag ≠ .eof ∧ k.tag ≠ .operator) : k.Sound names :=
  ⟨fun hk => h.1 (by rw [hk]; rfl), fun n hk => absurd (by rw [hk]; rfl) h.2⟩

/-- The operator has its name in the tree as well. -/
theorem operatorKind {n : Name} (h : (TokenKind.operator n).Sound names) :
    names.operatorKind n = .operator n := by
  obtain ⟨text, hs, ht⟩ := h.operator n rfl
  have hlookup : names.lookup n = text := by
    rw [Interner.lookup, Array.getD_eq_getD_getElem?, hs]
    rfl
  have hpipe : text ≠ "|" := by
    rintro rfl
    exact absurd ht (by decide)
  have hdot : text ≠ "." := by
    rintro rfl
    exact absurd ht (by decide)
  rw [Interner.operatorKind, hlookup, if_neg hpipe, if_neg hdot]

end TokenKind.Sound

theorem Tag.mem_keywords_of_keyword? {text : String} {tag : Tag} (h : Tag.keyword? text = some tag) :
    tag ∈ Tag.keywords := List.mem_of_find?_eq_some h

theorem Tag.mem_reservedOperators {text : String} {tag : Tag}
    (h : Tag.reservedOperator? text = some tag) : tag ∈ Tag.reservedOperators :=
  List.mem_of_find?_eq_some h

namespace TokenKind

variable {names : Interner} {k : TokenKind}

theorem sound_of_ofTag? {tag : Tag} (hk : ofTag? tag = some k) (h : tag ≠ .eof ∧ tag ≠ .operator) :
    k.Sound names := .of_tag (tag_ofTag? hk ▸ h)

theorem sound_of_keyword? {text : String} (h : keyword? text = some k) : k.Sound names := by
  obtain ⟨tag, ht, hk⟩ := Option.bind_eq_some_iff.1 h
  have reserved : ∀ tag ∈ Tag.keywords, tag ≠ .eof ∧ tag ≠ .operator := by decide
  exact sound_of_ofTag? hk (reserved tag (Tag.mem_keywords_of_keyword? ht))

theorem sound_of_reservedOperator? {text : String} (h : reservedOperator? text = some k) :
    k.Sound names := by
  obtain ⟨tag, ht, hk⟩ := Option.bind_eq_some_iff.1 h
  have reserved : ∀ tag ∈ Tag.reservedOperators, tag ≠ .eof ∧ tag ≠ .operator := by decide
  exact sound_of_ofTag? hk (reserved tag (Tag.mem_reservedOperators ht))

theorem sound_of_sign? {c : Char} (h : sign? c = some k) : k.Sound names := by
  unfold sign? at h
  split at h
  all_goals cases h
  all_goals exact .of_tag ⟨by decide, by decide⟩

end TokenKind

namespace Lexing

variable {names more : Interner} {text : List Char}

/-! ## One lexeme -/

/-- A sign is one of the signs. -/
theorem sign?_of_scan {c : Char} {cs rest : List Char} {kind : TokenKind}
    (h : scan c cs = .lexeme (.sign kind) text rest) : TokenKind.sign? c = some kind := by
  unfold scan scanNumber scanOperator scanString scanQuote scanCodePoint scanSymbol at h
  grind

/-- What becomes of a lexeme is sound, and names keep their strings. -/
structure ItemSound (names : Interner) (r : Except LexErrorKind Item × Interner) : Prop where
  kept : names.Kept r.2
  sound : ∀ k, r.1 = .ok (.token k) → k.Sound r.2

namespace ItemSound

theorem plain {kind : Except LexErrorKind TokenKind} (h : ∀ k, kind = .ok k → k.Sound names) :
    ItemSound names (plain names kind) := by
  refine ⟨.refl names, fun k hk => ?_⟩
  cases kind with
  | error e => cases hk
  | ok k' =>
    cases hk
    exact h _ rfl

theorem named {item : Name → Item}
    (h : ∀ k : TokenKind, item (names.intern (String.ofList text)).1 = .token k →
      k.Sound (names.intern (String.ofList text)).2) : ItemSound names (named names text item) := by
  refine ⟨.intern names _, fun k hk => ?_⟩
  exact h k (Except.ok.inj hk)

/-- A literal or name is neither an end nor an operator. -/
theorem map {β : Type} {value : Except LexErrorKind β} {kind : β → TokenKind}
    (h : ∀ b, (kind b).tag ≠ .eof ∧ (kind b).tag ≠ .operator) :
    ItemSound names (Lexing.plain names (value.map kind)) := by
  refine plain fun k hk => ?_
  cases value with
  | error e => cases hk
  | ok b =>
    cases hk
    exact .of_tag (h b)

/-- Neither is what has a name of another kind. -/
theorem token {kind : Name → TokenKind} (h : ∀ n, (kind n).tag ≠ .eof ∧ (kind n).tag ≠ .operator) :
    ItemSound names (Lexing.named names text fun n => .token (kind n)) :=
  named fun k hk => by
    cases hk
    exact .of_tag (h _)

end ItemSound

theorem commentItem_sound (names : Interner) (text : List Char) :
    ItemSound names (commentItem names text) := by
  unfold commentItem
  split
  · exact .token fun n => ⟨by simp [TokenKind.tag], by simp [TokenKind.tag]⟩
  · exact .token fun n => ⟨by simp [TokenKind.tag], by simp [TokenKind.tag]⟩
  · exact .named fun k hk => by cases hk

theorem item_sound (names : Interner) (shape : Shape) (text : List Char)
    (h : ∀ kind, shape = .sign kind → ∃ c, TokenKind.sign? c = some kind) :
    ItemSound names (item names shape text) := by
  unfold item
  cases shape with
  | comment => exact commentItem_sound names text
  | lineBreak | quote =>
    exact .plain fun k hk => by cases hk; exact .of_tag ⟨by decide, by decide⟩
  | word =>
    simp only
    split
    · rename_i kind hkind
      exact .plain fun k hk => by cases hk; exact TokenKind.sound_of_keyword? hkind
    · exact .token fun n => ⟨by simp [TokenKind.tag], by simp [TokenKind.tag]⟩
  | operator =>
    simp only
    split
    · rename_i kind hkind
      exact .plain fun k hk => by cases hk; exact TokenKind.sound_of_reservedOperator? hkind
    · rename_i hkind
      refine .named fun k hk => ?_
      cases hk
      refine ⟨by simp, fun n hn => ?_⟩
      cases hn
      exact ⟨_, Interner.Kept.strings_intern _ _, hkind⟩
  | symbol => exact .token fun n => ⟨by simp [TokenKind.tag], by simp [TokenKind.tag]⟩
  | sign kind =>
    obtain ⟨c, hc⟩ := h kind rfl
    exact .plain fun k hk => by cases hk; exact TokenKind.sound_of_sign? hc
  | int | float | char => exact .map fun b => ⟨by simp [TokenKind.tag], by simp [TokenKind.tag]⟩
  | string =>
    simp only
    split
    · exact .token fun n => ⟨by simp [TokenKind.tag], by simp [TokenKind.tag]⟩
    · exact .plain fun k hk => by cases hk
  | openString | openChar => exact .plain fun k hk => by cases hk

/-! ## A whole text -/

/-- All tokens so far are sound. -/
def Progress.Sound (s : Progress) : Prop := ∀ t ∈ s.tokens, t.kind.Sound s.names

theorem Progress.Sound.add {s : Progress} {i : Item} (h : s.Sound) (hn : s.names.Kept more)
    (hi : ∀ k, i = .token k → k.Sound more) : (s.add text i more).Sound := by
  cases i with
  | token kind =>
    intro t ht
    rcases Array.mem_push.1 ht with ht | rfl
    · exact (h t ht).mono hn
    · exact hi kind rfl
  | comment name => exact fun t ht => (h t ht).mono hn

/-- Lexing goes on as it began. -/
theorem Progress.Sound.run {s : Progress} (h : s.Sound) (cs : List Char) : (s.run cs).2.Sound := by
  fun_induction Progress.run s cs with
  | case1 => exact h
  | case2 s c cs _ text rest _ _ ih => exact ih h
  | case3 s c cs _ shape text rest hscan _ i names hitem ih =>
    have hs := item_sound s.names shape text fun kind e => ⟨c, sign?_of_scan (e ▸ hscan)⟩
    rw [hitem] at hs
    exact ih (h.add hs.kept fun k hk => hs.sound k (by rw [hk]))
  | case4 s c cs _ shape text rest hscan _ kind names hitem =>
    have hs := item_sound s.names shape text fun kind e => ⟨c, sign?_of_scan (e ▸ hscan)⟩
    rw [hitem] at hs
    exact fun t ht => (h t ht).mono hs.kept
  | case5 => exact h

theorem start_sound (names : Interner) (line : List Char) : (start names line).Sound := by
  unfold start
  simp only
  split
  · intro t ht
    simp at ht
  · refine Progress.Sound.add (fun t ht => by simp at ht) (.intern names _) fun k hk => ?_
    cases hk
    exact .of_tag ⟨by simp [TokenKind.tag], by simp [TokenKind.tag]⟩

end Lexing

open Lexing in
/-- A token list ends in `eof`, and all before is sound. -/
theorem lex_sound {source : String} {names names' : Interner} {tokens : TokenList}
    (h : lex source names = (.ok tokens, names')) :
    ∃ body : List Token, ∃ last : Token, tokens.toList = body ++ [last] ∧ last.kind = .eof ∧
      ∀ t ∈ body, t.kind.Sound names' := by
  unfold lex lexWithComments at h
  split at h
  · rename_i output names₁ hlex
    cases h
    split at hlex
    · cases hlex
    · split at hlex
      rename_i line body _
      have hs := (start_sound names line).run body
      split at hlex
      · cases hlex
      · rename_i s hrun
        rw [hrun] at hs
        split at hlex
        · cases hlex
          exact ⟨s.tokens.toList, _, Array.toList_push, rfl,
            fun t ht => hs t (Array.mem_def.2 ht)⟩
        · cases hlex
  · cases h

end SolSyntax
