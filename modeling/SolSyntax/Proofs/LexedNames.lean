import SolSyntax.Proofs.Pieces
import SolSyntax.Proofs.Lexemes
import SolSyntax.Proofs.Renaming
import SolSyntax.Proofs.Storage

/-!
# Lexing in different interners

What becomes of a lexeme is told by its text.  The interner only tells which index its string gets, so the
same source gives the same tokens and comments in any two interners, the same up to names.

Principal results: `item_uniform` — the lexemes; `lexWithComments_same` — whole sources.
-/

namespace SolSyntax

namespace Interner.Same

variable {names names' : Interner}

/-- What holds no names is the same. -/
theorem of_fixed [Rename α] {a : α} (h : ∀ ρ, rename ρ a = a) : names.Same names' a a :=
  fun _ => (h _).trans (h _).symm

theorem push [Rename α] {as bs : Array α} {a b : α} (h : names.Same names' as bs)
    (hab : names.Same names' a b) : names.Same names' (as.push a) (bs.push b) := by
  intro code
  have hlist := h code
  show Array.map _ (as.push a) = Array.map _ (bs.push b)
  rw [Array.map_push, Array.map_push, hab code]
  exact congrArg (Array.push · _) hlist

theorem toList [Rename α] {as bs : Array α} (h : names.Same names' as bs) :
    names.Same names' as.toList bs.toList := by
  intro code
  have harray := congrArg Array.toList (h code)
  simpa only [rename, Array.toList_map] using harray

/-- Ends are the same that are the same failure or the same result. -/
theorem cases {ε α : Type} [Rename α] {r r' : Except ε α}
    (h : names.Same names' r r') :
    (∃ e, r = .error e ∧ r' = .error e) ∨ ∃ a a', r = .ok a ∧ r' = .ok a' ∧ names.Same names' a a' := by
  have hcode := h fun _ => .empty
  obtain e | a := r <;> obtain e' | a' := r'
  · cases Except.error.inj (show Except.error e = Except.error e' from hcode)
    exact .inl ⟨e, rfl, rfl⟩
  · cases hcode
  · cases hcode
  · exact .inr ⟨a, a', rfl, rfl, fun code => Except.ok.inj (h code)⟩

end Interner.Same

theorem TokenKind.rename_of_ofTag? {tag : Tag} {k : TokenKind} (h : TokenKind.ofTag? tag = some k)
    (ρ : Name → Name) : rename ρ k = k := by
  cases tag <;> cases h <;> rfl

theorem Interner.Kept.lookup_intern {names more : Interner} {s : String}
    (h : (names.intern s).2.Kept more) : more.lookup (names.intern s).1 = s := by
  rw [Interner.lookup, Array.getD_eq_getD_getElem?, h _ _ (Interner.Kept.strings_intern names s)]
  rfl

namespace Lexing

/-- What a step gives is the same in all interners, and names keep their strings. -/
structure Uniform (f : Interner → Except LexErrorKind Item × Interner) : Prop where
  kept : ∀ names : Interner, names.Kept (f names).2
  same : ∀ names names' more more' : Interner, (f names).2.Kept more → (f names').2.Kept more' →
    more.Same more' (f names).1 (f names').1

namespace Uniform

theorem plain {kind : Except LexErrorKind TokenKind} (h : ∀ k, kind = .ok k → ∀ ρ, rename ρ k = k) :
    Uniform fun names => plain names kind := by
  refine ⟨fun names => .refl names, fun names names' more more' _ _ => .of_fixed fun ρ => ?_⟩
  cases kind with
  | error e => rfl
  | ok k => exact congrArg (fun k => Except.ok (Item.token k)) (h k rfl ρ)

/-- It is a value, if there is one. -/
theorem value {result : Except LexErrorKind β} {kind : β → TokenKind}
    (h : ∀ b ρ, rename ρ (kind b) = kind b) : Uniform fun names => Lexing.plain names (result.map kind) := by
  refine .plain fun k hk ρ => ?_
  cases result with
  | error e => cases hk
  | ok b =>
    cases hk
    exact h b ρ

/-- It is named after a text. -/
theorem named {text : List Char} {item : Name → Item} (h : ∀ ρ n, rename ρ (item n) = item (ρ n)) :
    Uniform fun names => named names text item := by
  refine ⟨fun names => .intern names _, fun names names' more more' hmore hmore' code => ?_⟩
  have hleft := Interner.Kept.lookup_intern hmore
  have hright := Interner.Kept.lookup_intern hmore'
  show Except.ok (rename _ (item (names.intern (String.ofList text)).1)) =
    Except.ok (rename _ (item (names'.intern (String.ofList text)).1))
  rw [h, h, hleft, hright]

/-- In two interners it fails in the same way, or gives the same. -/
theorem ends {f : Interner → Except LexErrorKind Item × Interner} (h : Uniform f) (names names' : Interner) :
    (∃ kind more more', f names = (.error kind, more) ∧ f names' = (.error kind, more') ∧
      names.Kept more ∧ names'.Kept more') ∨
    ∃ i i' more more', f names = (.ok i, more) ∧ f names' = (.ok i', more') ∧
      names.Kept more ∧ names'.Kept more' ∧
      ∀ last last', more.Kept last → more'.Kept last' → last.Same last' i i' := by
  have kept := h.kept names
  have kept' := h.kept names'
  have same := h.same names names'
  generalize f names = left at kept same ⊢
  generalize f names' = right at kept' same ⊢
  obtain ⟨r, more⟩ := left
  obtain ⟨r', more'⟩ := right
  rcases (same more more' (.refl _) (.refl _)).cases with ⟨kind, rfl, rfl⟩ | ⟨i, i', rfl, rfl, -⟩
  · exact .inl ⟨kind, more, more', rfl, rfl, kept, kept'⟩
  · exact .inr ⟨i, i', more, more', rfl, rfl, kept, kept',
      fun last last' hl hl' code => Except.ok.inj (same last last' hl hl' code)⟩

end Uniform

theorem commentItem_uniform (text : List Char) : Uniform fun names => commentItem names text := by
  unfold commentItem
  split <;> exact .named fun _ _ => rfl

theorem item_uniform {shape : Shape} (text : List Char)
    (hsign : ∀ kind, shape = .sign kind → ∃ c, TokenKind.sign? c = some kind) :
    Uniform fun names => item names shape text := by
  unfold item
  cases shape with
  | comment => exact commentItem_uniform text
  | lineBreak | quote => exact .plain fun k hk _ => by cases hk; rfl
  | word | operator =>
    dsimp only
    split
    · rename_i kind hkind
      obtain ⟨tag, -, htag⟩ := Option.bind_eq_some_iff.1 hkind
      exact .plain fun k hk => by cases hk; exact TokenKind.rename_of_ofTag? htag
    · exact .named fun _ _ => rfl
  | symbol => exact .named fun _ _ => rfl
  | sign kind =>
    obtain ⟨c, hc⟩ := hsign kind rfl
    refine .plain fun k hk _ => ?_
    cases hk
    unfold TokenKind.sign? at hc
    split at hc <;> cases hc <;> rfl
  | int | float | char => exact .value fun _ _ => rfl
  | string =>
    dsimp only
    split
    · exact .named fun _ _ => rfl
    · exact .plain fun k hk => by cases hk
  | openString | openChar => exact .plain fun k hk => by cases hk

/-- What becomes of a lexeme that was scanned. -/
theorem uniform_of_scan {first : Char} {cs text rest : List Char} {shape : Shape}
    (h : scan first cs = .lexeme shape text rest) : Uniform fun names => item names shape text :=
  item_uniform text fun _ e => ⟨first, sign?_of_scan (e ▸ h)⟩

/-! ## Runs -/

namespace Progress

variable {s s' : Progress}

/-- Two runs have come to the same place with the same tokens and comments. -/
structure Same (s s' : Progress) : Prop where
  place : s.place = s'.place
  tokens : ∀ more more', s.names.Kept more → s'.names.Kept more' →
    more.Same more' s.tokens s'.tokens
  comments : ∀ more more', s.names.Kept more → s'.names.Kept more' →
    more.Same more' s.comments s'.comments

namespace Same

theorem grow (h : s.Same s') {names names' : Interner} (hn : s.names.Kept names)
    (hn' : s'.names.Kept names') : Same { s with names } { s' with names := names' } :=
  ⟨h.place, fun more more' hm hm' => h.tokens more more' (hn.trans hm) (hn'.trans hm'),
    fun more more' hm hm' => h.comments more more' (hn.trans hm) (hn'.trans hm')⟩

theorem add (h : s.Same s') {text : List Char} {i i' : Item} {names names' : Interner}
    (hn : s.names.Kept names) (hn' : s'.names.Kept names')
    (hi : ∀ more more', names.Kept more → names'.Kept more' → more.Same more' i i') :
    (s.add text i names).Same (s'.add text i' names') := by
  have grown := h.grow hn hn'
  have hplace := h.place
  cases i with
  | token k =>
    cases i' with
    | comment n => cases hi names names' (.refl _) (.refl _) fun _ => .empty
    | token k' =>
      refine ⟨congrArg (·.advance text) hplace, fun more more' hm hm' => ?_, grown.comments⟩
      refine (grown.tokens more more' hm hm').push fun code => ?_
      have hk := Item.token.inj (hi more more' hm hm' code)
      show Token.mk (rename _ k) _ _ = Token.mk (rename _ k') _ _
      rw [hk, hplace]
  | comment n =>
    cases i' with
    | token k => cases hi names names' (.refl _) (.refl _) fun _ => .empty
    | comment n' =>
      refine ⟨congrArg (·.advance text) hplace, grown.tokens, fun more more' hm hm' => ?_⟩
      refine (grown.comments more more' hm hm').push fun code => ?_
      have hk := Item.comment.inj (hi more more' hm hm' code)
      show Comment.mk _ _ = Comment.mk _ _
      rw [hplace]
      exact congrArg (Comment.mk · _) hk

end Same

theorem errorAt_congr (h : s.place = s'.place) (text : List Char) (kind : LexErrorKind) :
    s.errorAt text kind = s'.errorAt text kind := by
  unfold errorAt
  rw [h]

/-- Runs that were the same go on in the same way. -/
theorem run_same (h : s.Same s') (cs : List Char) :
    (s.run cs).1 = (s'.run cs).1 ∧ (s.run cs).2.Same (s'.run cs).2 := by
  fun_induction s.run cs generalizing s' with
  | case1 s =>
    rw [run_nil]
    exact ⟨rfl, h⟩
  | case2 s c cs _ text rest hscan _ ih =>
    rw [run_blank hscan, ← h.place]
    exact ih ⟨rfl, h.tokens, h.comments⟩
  | case3 s c cs _ shape text rest hscan _ i names hitem ih =>
    rcases (uniform_of_scan hscan).ends s.names s'.names with
      ⟨kind, more, more', hi, hi', -, -⟩ | ⟨i, i', more, more', hi, hi', kept, kept', same⟩
    · cases hitem.symm.trans hi
    · cases hitem.symm.trans hi
      rw [run_lexeme hscan hi']
      exact ih (h.add kept kept' same)
  | case4 s c cs _ shape text rest hscan _ kind names hitem =>
    rcases (uniform_of_scan hscan).ends s.names s'.names with
      ⟨kind, more, more', hi, hi', kept, kept'⟩ | ⟨i, i', more, more', hi, -⟩
    · cases hitem.symm.trans hi
      rw [run_error hscan hi']
      exact ⟨congrArg some (errorAt_congr h.place text kind), h.grow kept kept'⟩
    · cases hitem.symm.trans hi
  | case5 s c cs _ text rest hscan =>
    rw [run_stray hscan]
    exact ⟨congrArg some (errorAt_congr h.place text _), h⟩

end Progress

/-- The first line is read in the same way in all interners. -/
theorem start_same (names names' : Interner) (line : List Char) :
    (start names line).Same (start names' line) := by
  have fresh : Progress.Same ⟨names, .first, #[], #[]⟩ ⟨names', .first, #[], #[]⟩ :=
    ⟨rfl, fun _ _ _ _ _ => Array.map_empty.trans Array.map_empty.symm,
      fun _ _ _ _ _ => Array.map_empty.trans Array.map_empty.symm⟩
  unfold start
  dsimp only
  split
  · exact fresh
  · refine fresh.add (.intern names _) (.intern names' _) fun more more' hm hm' code => ?_
    show Item.token (.hashBang (code _)) = Item.token (.hashBang (code _))
    rw [hm.lookup_intern, hm'.lookup_intern]

/-! ## Whole sources -/

/-- What a run over all of a source amounts to. -/
def outcome (r : Option LexError × Progress) : Except LexFailure LexOutput :=
  match r with
  | (some e, _) => .error (.error e)
  | (none, s) =>
    if s.place.position.fits then
      .ok ⟨⟨s.tokens.push ⟨.eof, .point s.place.offset, s.place.position⟩⟩, s.comments.toList⟩
    else .error (.fault .wordOverflow)

theorem lexWithComments_eq_outcome {source : String} (h : source.utf8ByteSize < wordLimit)
    (names : Interner) :
    lexWithComments source names =
      (outcome ((start names (splitHashBang source.toList).1).run (splitHashBang source.toList).2),
        ((start names (splitHashBang source.toList).1).run (splitHashBang source.toList).2).2.names) := by
  unfold lexWithComments outcome
  rw [if_neg (Nat.not_le.2 h)]
  dsimp only
  generalize (start names (splitHashBang source.toList).1).run (splitHashBang source.toList).2 = r
  obtain ⟨_ | e, s⟩ := r
  · dsimp only
    split <;> rfl
  · rfl

theorem outcome_same {r r' : Option LexError × Progress} (he : r.1 = r'.1) (h : r.2.Same r'.2)
    {more more' : Interner} (hmore : r.2.names.Kept more) (hmore' : r'.2.names.Kept more') :
    more.Same more' (outcome r) (outcome r') := by
  obtain ⟨e, s⟩ := r
  obtain ⟨e', s'⟩ := r'
  obtain rfl : e = e' := he
  cases e with
  | some e => exact fun _ => rfl
  | none =>
    have hplace : s.place = s'.place := h.place
    unfold outcome
    dsimp only
    rw [← hplace]
    split
    · intro code
      have htokens := (h.tokens more more' hmore hmore').push
        (a := ⟨.eof, .point s.place.offset, s.place.position⟩) (.of_fixed fun _ => rfl) code
      have hcomments := congrArg Array.toList (h.comments more more' hmore hmore' code)
      simp only [rename, Array.toList_map] at hcomments
      exact congrArg Except.ok (LexOutput.mk.injEq .. ▸ ⟨congrArg TokenList.mk htokens, hcomments⟩)
    · exact fun _ => rfl

end Lexing

open Lexing

/-- Lexing gives the same in any two interners. -/
theorem lexWithComments_same (source : String) (names names' : Interner) {more more' : Interner}
    (hmore : (lexWithComments source names).2.Kept more)
    (hmore' : (lexWithComments source names').2.Kept more') :
    more.Same more' (lexWithComments source names).1 (lexWithComments source names').1 := by
  by_cases hsize : source.utf8ByteSize < wordLimit
  · rw [lexWithComments_eq_outcome hsize] at hmore hmore' ⊢
    rw [lexWithComments_eq_outcome hsize]
    obtain ⟨he, same⟩ := Progress.run_same (start_same names names' (splitHashBang source.toList).1)
      (splitHashBang source.toList).2
    exact outcome_same he same hmore hmore'
  · unfold lexWithComments
    rw [if_pos (Nat.not_lt.1 hsize), if_pos (Nat.not_lt.1 hsize)]
    exact fun _ => rfl

end SolSyntax
