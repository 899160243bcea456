import SolSyntax.Proofs.Lexemes
import SolSyntax.Proofs.Pieces

/-!
# Tokens over their source

The tokens and comments of a source lie over it side by side, and between them are blanks alone.  Each of
them depends on nothing but its own text: that text, lexed on its own, gives the same token or comment.
Names are stored anew if another interner is used, so the same means: with a name for the same string.

Principal result: `lex_tiles`.
-/

namespace SolSyntax

/-! ## Spans over a text -/

/-- Spans in order, of which none is empty or cuts a character; outside of them are blanks. -/
structure Tiles (spans : List Span) (source : List Char) : Prop where
  apart : spans.Pairwise fun s t => s.stop ≤ t.start
  ne_empty : ∀ s ∈ spans, s.start < s.stop
  cuts : ∀ s ∈ spans, ∃ text, sliceBytes s.start s.stop source = some text
  blank : ∀ before c after, source = before ++ c :: after →
    (∀ s ∈ spans, s.contains (byteLength before) = false) → Lexing.isBlank c = true

namespace Tiles

variable {spans : List Span} {source text : List Char}

theorem empty : Tiles [] [] where
  apart := .nil
  ne_empty := fun _ h => by cases h
  cuts := fun _ h => by cases h
  blank := fun before c after h => by simp at h

/-- A span lies within the text. -/
theorem stop_le (h : Tiles spans source) {s : Span} (hs : s ∈ spans) : s.stop ≤ byteLength source := by
  obtain ⟨text, htext⟩ := h.cuts s hs
  obtain ⟨before, after, rfl, -, hstop⟩ := sliceBytes_eq_some.1 htext
  rw [← hstop, ← List.append_assoc, byteLength_append (before ++ text)]
  omega

theorem cuts_append (h : Tiles spans source) (more : List Char) :
    ∀ s ∈ spans, ∃ text, sliceBytes s.start s.stop (source ++ more) = some text := by
  intro s hs
  obtain ⟨text, htext⟩ := h.cuts s hs
  obtain ⟨before, after, rfl, hstart, hstop⟩ := sliceBytes_eq_some.1 htext
  exact ⟨text, sliceBytes_eq_some.2 ⟨before, after ++ more, by simp, hstart, hstop⟩⟩

/-- A character of a longer text is one of the text, or comes behind it. -/
theorem mem_append {before after : List Char} {c : Char} (h : source ++ text = before ++ c :: after) :
    (∃ more, source = before ++ c :: more) ∨
      ∃ more, before = source ++ more ∧ text = more ++ c :: after := by
  rcases List.append_eq_append_iff.1 h with ⟨more, hbefore, htext⟩ | ⟨more, hsource, htext⟩
  · exact .inr ⟨more, hbefore, htext⟩
  · cases more with
    | nil => exact .inr ⟨[], by simpa using hsource.symm, htext.symm⟩
    | cons d more =>
      obtain ⟨rfl, rfl⟩ := List.cons.inj htext
      exact .inl ⟨more, hsource⟩

theorem blanks (h : Tiles spans source) (hblank : ∀ c ∈ text, Lexing.isBlank c = true) :
    Tiles spans (source ++ text) where
  apart := h.apart
  ne_empty := h.ne_empty
  cuts := h.cuts_append text
  blank := by
    intro before c after heq hout
    rcases mem_append heq with ⟨more, hsource⟩ | ⟨more, -, rfl⟩
    · exact h.blank before c more hsource hout
    · exact hblank c (by simp)

theorem snoc (h : Tiles spans source) (hne : text ≠ []) :
    Tiles (spans ++ [⟨byteLength source, byteLength (source ++ text)⟩]) (source ++ text) where
  apart := by
    refine List.pairwise_append.2 ⟨h.apart, List.pairwise_singleton _ _, fun s hs t ht => ?_⟩
    rw [List.mem_singleton.1 ht]
    exact h.stop_le hs
  ne_empty := by
    intro s hs
    rcases List.mem_append.1 hs with hs | hs
    · exact h.ne_empty s hs
    · rw [List.mem_singleton.1 hs]
      have := List.length_pos_iff.2 hne
      have := length_le_byteLength text
      show byteLength source < byteLength (source ++ text)
      rw [byteLength_append]
      omega
  cuts := by
    intro s hs
    rcases List.mem_append.1 hs with hs | hs
    · exact h.cuts_append text s hs
    · rw [List.mem_singleton.1 hs]
      exact ⟨text, sliceBytes_eq_some.2 ⟨source, [], by simp, rfl, rfl⟩⟩
  blank := by
    intro before c after heq hout
    rcases mem_append heq with ⟨more, hsource⟩ | ⟨more, rfl, rfl⟩
    · exact h.blank before c more hsource fun s hs => hout s (List.mem_append_left _ hs)
    · have := hout _ (List.mem_append_right _ (List.mem_singleton.2 rfl))
      have hpos := Char.utf8Size_pos c
      simp only [Span.contains, byteLength_append, byteLength_cons, decide_eq_false_iff_not] at this
      omega

end Tiles

/-! ## Names in another interner -/

/-- A kind with its name taken from one interner to another. -/
def TokenKind.carried (names other : Interner) : TokenKind → TokenKind × Interner
  | .ident n => (other.intern (names.lookup n)).map .ident id
  | .symbol n => (other.intern (names.lookup n)).map .symbol id
  | .operator n => (other.intern (names.lookup n)).map .operator id
  | .string n => (other.intern (names.lookup n)).map .string id
  | .docString n => (other.intern (names.lookup n)).map .docString id
  | .hashBang n => (other.intern (names.lookup n)).map .hashBang id
  | k => (k, other)

theorem TokenKind.carried_of_ofTag? {tag : Tag} {k : TokenKind} (h : TokenKind.ofTag? tag = some k)
    (names other : Interner) : k.carried names other = (k, other) := by
  cases tag <;> cases h <;> rfl

namespace Lexing

/-- An item with its name taken from one interner to another. -/
def Item.carried (names other : Interner) : Item → Item × Interner
  | .token k => (k.carried names other).map .token id
  | .comment n => (other.intern (names.lookup n)).map .comment id

/-- What becomes of a lexeme does not depend on the interner, names apart. -/
def Carries (f : Interner → Except LexErrorKind Item × Interner) : Prop :=
  ∀ names i names', f names = (.ok i, names') → names.Kept names' ∧ ∀ more, names'.Kept more →
    (∀ other, f other = (.ok (i.carried more other).1, (i.carried more other).2)) ∧
      i.carried more more = (i, more)

/-- It has no name. -/
theorem Carries.plain {kind : Except LexErrorKind TokenKind}
    (h : ∀ k, kind = .ok k → ∀ names other, k.carried names other = (k, other)) :
    Carries fun names => plain names kind := by
  rintro names i names' hi
  cases kind with
  | error e => cases hi
  | ok k =>
    cases hi
    refine ⟨.refl names, fun more _ => ⟨fun other => ?_, ?_⟩⟩
    · simp only [Item.carried, h k rfl]
      rfl
    · simp only [Item.carried, h k rfl]
      rfl

/-- It is a value, if there is one. -/
theorem Carries.map {value : Except LexErrorKind β} {kind : β → TokenKind}
    (h : ∀ b names other, (kind b).carried names other = (kind b, other)) :
    Carries fun names => Lexing.plain names (value.map kind) := by
  refine .plain fun k hk names other => ?_
  cases value with
  | error e => cases hk
  | ok b =>
    cases hk
    exact h b names other

/-- It is named after a text. -/
theorem Carries.named {text : List Char} {item : Name → Item}
    (h : ∀ n names other, (item n).carried names other =
      (other.intern (names.lookup n)).map item id) :
    Carries fun names => named names text item := by
  rintro names i names' hi
  have hi : (Except.ok (item (names.intern (String.ofList text)).1), (names.intern (String.ofList text)).2) =
    (Except.ok i, names') := hi
  cases hi
  refine ⟨.intern names _, fun more hmore => ?_⟩
  have hlookup : more.lookup (names.intern (String.ofList text)).1 = String.ofList text := by
    rw [Interner.lookup, Array.getD_eq_getD_getElem?, hmore _ _ (Interner.Kept.strings_intern _ _)]
    rfl
  refine ⟨fun other => ?_, ?_⟩
  · rw [h, hlookup]
    rfl
  · rw [h, hlookup, Interner.Kept.intern_eq hmore]
    rfl

theorem commentItem_carries (text : List Char) : Carries fun names => commentItem names text := by
  unfold commentItem
  split
  · exact .named fun _ _ _ => rfl
  · exact .named fun _ _ _ => rfl
  · exact .named fun _ _ _ => rfl

theorem item_carries {shape : Shape} (text : List Char)
    (hsign : ∀ kind, shape = .sign kind → ∃ c, TokenKind.sign? c = some kind) :
    Carries fun names => item names shape text := by
  unfold item
  cases shape with
  | comment => exact commentItem_carries text
  | lineBreak | quote => exact .plain fun k hk _ _ => by cases hk; rfl
  | word | operator =>
    dsimp only
    split
    · rename_i kind hkind
      obtain ⟨tag, -, htag⟩ := Option.bind_eq_some_iff.1 hkind
      exact .plain fun k hk => by cases hk; exact TokenKind.carried_of_ofTag? htag
    · exact .named fun _ _ _ => rfl
  | symbol => exact .named fun _ _ _ => rfl
  | sign kind =>
    obtain ⟨c, hc⟩ := hsign kind rfl
    refine .plain fun k hk _ _ => ?_
    cases hk
    unfold TokenKind.sign? at hc
    split at hc <;> cases hc <;> rfl
  | int | float | char => exact .map fun _ _ _ => rfl
  | string =>
    dsimp only
    split
    · exact .named fun _ _ _ => rfl
    · exact .plain fun k hk => by cases hk
  | openString | openChar => exact .plain fun k hk => by cases hk

/-! ## A text on its own -/

/-- Before anything has been lexed. -/
def Progress.empty (names : Interner) : Progress := ⟨names, .first, #[], #[]⟩

/-- Lexes a text from its beginning. -/
def lexText (names : Interner) (cs : List Char) : Option LexError × Progress :=
  (start names (splitHashBang cs).1).run (splitHashBang cs).2

/-- A text becomes an item, in any interner; and the very same if names are stored already. -/
def Becomes (names : Interner) (text : List Char) (i : Item) : Prop :=
  ∀ more, names.Kept more →
    (∀ other, lexText other text =
      (none, (Progress.empty other).add text (i.carried more other).1 (i.carried more other).2)) ∧
    i.carried more more = (i, more)

theorem Becomes.mono {names more : Interner} {text : List Char} {i : Item} (h : Becomes names text i)
    (hn : names.Kept more) : Becomes more text i := fun _ hm => h _ (hn.trans hm)

/-- Only a hash before an exclamation mark makes a first line. -/
theorem splitHashBang_none {cs : List Char} (h : ∀ rest, cs ≠ '#' :: '!' :: rest) :
    splitHashBang cs = ([], cs) := by
  unfold splitHashBang
  split
  · exact (h _ rfl).elim
  · rfl

/-- What is one lexeme has no first line. -/
theorem splitHashBang_of_scan {first : Char} {cs text rest : List Char} {shape : Shape}
    (h : scan first cs = .lexeme shape text rest) : splitHashBang text = ([], text) := by
  refine splitHashBang_none fun more htext => ?_
  rw [htext] at h
  obtain ⟨rfl, -⟩ := List.cons.inj (eq_cons_of_scan h)
  have hash : ∀ cs, scan '#' cs = .lexeme (.sign .hash) ['#'] cs := fun cs => by
    simp [scan, beginsLineBreak, isBlank, isNameStart, isLetter, isDigit, isOperatorChar,
      TokenKind.sign?]
  rw [hash] at h
  cases h

/-- Blanks are blanks. -/
theorem isBlank_of_scan {first : Char} {cs text rest : List Char}
    (h : scan first cs = .blank text rest) : ∀ c ∈ text, isBlank c = true := by
  unfold scan at h
  split at h
  · cases h
  split at h
  · rename_i hblank
    cases h
    exact List.forall_mem_cons.2 ⟨hblank, (isRun_run isBlank cs).all⟩
  unfold scanNumber scanOperator scanString scanQuote scanCodePoint scanSymbol at h
  grind

/-- A lexeme becomes what it has become in its source. -/
theorem becomes_of_scan {first : Char} {cs text rest : List Char} {shape : Shape} {i : Item}
    {names names' : Interner} (h : scan first cs = .lexeme shape text rest)
    (hi : item names shape text = (.ok i, names')) : names.Kept names' ∧ Becomes names' text i := by
  have carries : Carries fun names => item names shape text :=
    item_carries text fun kind e => ⟨first, sign?_of_scan (e ▸ h)⟩
  obtain ⟨hkept, hagain⟩ := carries names i names' hi
  refine ⟨hkept, fun more hmore => ⟨fun other => ?_, (hagain more hmore).2⟩⟩
  have halone := scan_again h shape.allows_nil
  rw [List.append_nil] at halone
  have hrun := Progress.run_lexeme (s := .empty other) halone ((hagain more hmore).1 other)
  rw [← eq_cons_of_scan h, Progress.run_nil] at hrun
  rw [lexText, splitHashBang_of_scan h]
  exact hrun

theorem splitHashBang_append (cs : List Char) :
    (splitHashBang cs).1 ++ (splitHashBang cs).2 = cs := by
  unfold splitHashBang
  split
  · rename_i rest
    split
    · rename_i text more h
      simp [append_of_run_eq h]
    · rename_i text more _ h
      simp [append_of_run_eq h]
  · rfl

/-- The first line is a first line on its own. -/
theorem splitHashBang_line (cs : List Char) :
    splitHashBang (splitHashBang cs).1 = ((splitHashBang cs).1, []) := by
  have line {text more : List Char} (htext : ∀ c ∈ text, (c != '\n') = true)
      (hmore : more = ['\n'] ∨ more = []) :
      splitHashBang ('#' :: '!' :: (text ++ more)) = ('#' :: '!' :: (text ++ more), []) := by
    have hrun : run (· != '\n') (text ++ more) = (text, more) := by
      refine run_of_stops htext ?_
      rcases hmore with rfl | rfl
      · rintro c ⟨⟩
        decide
      · exact fun c hc => by cases hc
    rcases hmore with rfl | rfl
    · simp [splitHashBang, hrun]
    · rw [List.append_nil] at hrun ⊢
      simp [splitHashBang, hrun]
  cases hcs : splitHashBang cs with
  | mk first rest =>
    unfold splitHashBang at hcs
    split at hcs
    · split at hcs
      · rename_i text more hrun
        cases hcs
        exact line (isRun_of_eq hrun).all (.inl rfl)
      · rename_i text more _ hrun
        cases hcs
        have := line (isRun_of_eq hrun).all (.inr rfl)
        rwa [List.append_nil] at this
    · cases hcs
      rfl

/-- The first line becomes a token, in which the interner does not matter. -/
theorem becomes_line (names : Interner) {cs : List Char} (hne : (splitHashBang cs).1 ≠ []) :
    ∃ i names', start names (splitHashBang cs).1 =
        (Progress.empty names).add (splitHashBang cs).1 i names' ∧
      names.Kept names' ∧ Becomes names' (splitHashBang cs).1 i := by
  have hempty : (splitHashBang cs).1.isEmpty = false := by simpa using hne
  generalize hline : splitHashBang cs = split at hne hempty
  obtain ⟨line, rest⟩ := split
  dsimp only at hne hempty ⊢
  let text := trimEnd (fun c => c == '\r' || c == '\n') (line.drop 2)
  have carries : Carries fun names => named names text fun n => .token (.hashBang n) :=
    .named fun _ _ _ => rfl
  have hstart {other other' : Interner} {i : Item}
      (h : named other text (fun n => .token (.hashBang n)) = (.ok i, other')) :
      start other line = (Progress.empty other).add line i other' := by
    obtain ⟨hi, rfl⟩ := Prod.mk.inj h
    rw [← Except.ok.inj hi]
    unfold start
    rw [hempty]
    rfl
  obtain ⟨i, names', hnamed⟩ : ∃ i names',
      named names text (fun n => .token (.hashBang n)) = (.ok i, names') := ⟨_, _, rfl⟩
  obtain ⟨hkept, hagain⟩ := carries names i names' hnamed
  refine ⟨i, names', hstart hnamed, hkept, fun more hmore => ⟨fun other => ?_, (hagain more hmore).2⟩⟩
  have hself := splitHashBang_line cs
  rw [hline] at hself
  rw [lexText, hself, Progress.run_nil, hstart ((hagain more hmore).1 other)]

/-! ## All of a source -/

/-- A part of a text becomes an item. -/
def LaidOut (names : Interner) (source : List Char) (span : Span) (i : Item) : Prop :=
  ∃ before text after, source = before ++ (text ++ after) ∧
    span = ⟨byteLength before, byteLength (before ++ text)⟩ ∧ Becomes names text i

theorem LaidOut.more {names more : Interner} {source : List Char} {span : Span} {i : Item}
    (h : LaidOut names source span i) (hn : names.Kept more) (text : List Char) :
    LaidOut more (source ++ text) span i := by
  obtain ⟨before, part, after, rfl, hspan, hbecomes⟩ := h
  exact ⟨before, part, after ++ text, by simp, hspan, hbecomes.mono hn⟩

/-- What has been lexed lies over the text `done`. -/
structure Progress.Covers (s : Progress) (done : List Char) : Prop where
  place : s.place = Place.first.advance done
  spans : ∃ spans, spans.Perm (s.tokens.toList.map Token.span ++ s.comments.toList.map Comment.span) ∧
    Tiles spans done
  tokens : ∀ t ∈ s.tokens.toList, LaidOut s.names done t.span (.token t.kind)
  comments : ∀ c ∈ s.comments.toList, LaidOut s.names done c.span (.comment c.text)

theorem Place.advance_append (p : Place) (as bs : List Char) :
    p.advance (as ++ bs) = (p.advance as).advance bs := List.foldl_append

theorem Place.offset_advance (p : Place) (cs : List Char) :
    (p.advance cs).offset = p.offset + byteLength cs := by
  induction cs generalizing p with
  | nil => rfl
  | cons c cs ih =>
    rw [byteLength_cons, ← Nat.add_assoc]
    exact ih (p.after c)

theorem Place.offset_first_advance (cs : List Char) :
    (Place.first.advance cs).offset = byteLength cs := by
  rw [Place.offset_advance]
  exact Nat.zero_add _

theorem Place.spanOf_first (text : List Char) : Place.first.spanOf text = ⟨0, byteLength text⟩ := by
  rw [Place.spanOf, Place.offset_first_advance]
  rfl

/-- An error at the beginning. -/
theorem Progress.errorAt_empty (names : Interner) (text : List Char) (kind : LexErrorKind) :
    (Progress.empty names).errorAt text kind = ⟨kind, ⟨0, byteLength text⟩, .first⟩ := by
  rw [Progress.errorAt, show (Progress.empty names).place = Place.first from rfl, Place.spanOf_first]
  rfl

namespace Progress.Covers

variable {s : Progress} {done text : List Char}

theorem empty (names : Interner) : (Progress.empty names).Covers [] where
  place := rfl
  spans := ⟨[], .refl _, .empty⟩
  tokens := fun _ h => by cases h
  comments := fun _ h => by cases h

theorem offset (h : s.Covers done) : s.place.offset = byteLength done := by
  rw [h.place, Place.offset_first_advance]

theorem blanks (h : s.Covers done) (hblank : ∀ c ∈ text, isBlank c = true) :
    Progress.Covers { s with place := s.place.advance text } (done ++ text) where
  place := by rw [Place.advance_append, h.place]
  spans := by
    obtain ⟨spans, hperm, htiles⟩ := h.spans
    exact ⟨spans, hperm, htiles.blanks hblank⟩
  tokens := fun t ht => (h.tokens t ht).more (.refl _) text
  comments := fun c hc => (h.comments c hc).more (.refl _) text

theorem add (h : s.Covers done) (hne : text ≠ []) {i : Item} {names : Interner}
    (hn : s.names.Kept names) (hi : Becomes names text i) :
    (s.add text i names).Covers (done ++ text) := by
  have hspan : s.place.spanOf text = ⟨byteLength done, byteLength (done ++ text)⟩ := by
    rw [Place.spanOf, Place.offset_advance, h.offset, byteLength_append]
  have hplace : s.place.advance text = Place.first.advance (done ++ text) := by
    rw [Place.advance_append, h.place]
  have laid : LaidOut names (done ++ text) ⟨byteLength done, byteLength (done ++ text)⟩ i :=
    ⟨done, text, [], by simp, rfl, hi⟩
  obtain ⟨spans, hperm, htiles⟩ := h.spans
  have hspans := htiles.snoc hne
  cases i with
  | token kind =>
    refine ⟨hplace, ⟨_, ?_, hspans⟩, fun t ht => ?_, fun c hc => (h.comments c hc).more hn text⟩
    · simp only [Progress.add, Array.toList_push, List.map_append, List.map_cons, List.map_nil, hspan,
        List.append_assoc]
      refine (hperm.append_right _).trans ?_
      rw [List.append_assoc]
      exact .append_left _ List.perm_append_comm
    · simp only [Progress.add, Array.toList_push, List.mem_append, List.mem_singleton, hspan] at ht
      rcases ht with ht | rfl
      · exact (h.tokens t ht).more hn text
      · exact laid
  | comment name =>
    refine ⟨hplace, ⟨_, ?_, hspans⟩, fun t ht => (h.tokens t ht).more hn text, fun c hc => ?_⟩
    · simp only [Progress.add, Array.toList_push, List.map_append, List.map_cons, List.map_nil, hspan]
      rw [← List.append_assoc]
      exact hperm.append_right _
    · simp only [Progress.add, Array.toList_push, List.mem_append, List.mem_singleton, hspan] at hc
      rcases hc with hc | rfl
      · exact (h.comments c hc).more hn text
      · exact laid

/-- Lexing begins with the first line. -/
theorem start (names : Interner) (cs : List Char) :
    (Lexing.start names (splitHashBang cs).1).Covers (splitHashBang cs).1 := by
  by_cases hne : (splitHashBang cs).1 = []
  · rw [hne]
    exact .empty names
  · obtain ⟨i, names', hstart, hkept, hbecomes⟩ := becomes_line names hne
    rw [hstart]
    exact (Covers.empty names).add hne hkept hbecomes

/-- Lexing goes on over the rest of a text. -/
theorem run (h : s.Covers done) {cs : List Char} {s' : Progress} (hrun : s.run cs = (none, s')) :
    s'.Covers (done ++ cs) := by
  fun_induction Progress.run s cs generalizing done with
  | case1 s =>
    cases hrun
    rwa [List.append_nil]
  | case2 s c cs _ text rest hscan _ ih =>
    have happend : text ++ rest = c :: cs := (cuts_of_scan hscan).text_append_rest
    have := ih (h.blanks (isBlank_of_scan hscan)) hrun
    rwa [List.append_assoc, happend] at this
  | case3 s c cs _ shape text rest hscan _ i names hitem ih =>
    have happend : text ++ rest = c :: cs := (cuts_of_scan hscan).text_append_rest
    have hne : text ≠ [] := (cuts_of_scan hscan).text_ne_nil
    obtain ⟨hkept, hbecomes⟩ := becomes_of_scan hscan hitem
    have := ih (h.add hne hkept hbecomes) hrun
    rwa [List.append_assoc, happend] at this
  | case4 => cases hrun
  | case5 => cases hrun

end Progress.Covers

/-! ## Sources -/

theorem Place.position_le (p : Place) (cs : List Char) :
    (p.advance cs).position.line ≤ p.position.line + cs.length ∧
      (p.advance cs).position.column ≤ p.position.column + cs.length := by
  induction cs generalizing p with
  | nil => exact ⟨Nat.le_refl _, Nat.le_refl _⟩
  | cons c cs ih =>
    obtain ⟨hline, hcolumn⟩ := ih (p.after c)
    have hafter : (p.after c).position.line ≤ p.position.line + 1 ∧
        (p.after c).position.column ≤ p.position.column + 1 := by
      simp only [Place.after, Position.after]
      split
      · exact ⟨Nat.le_refl _, Nat.le_add_left 1 _⟩
      · exact ⟨Nat.le_succ _, Nat.le_refl _⟩
    rw [List.length_cons]
    exact ⟨Nat.le_trans hline (by omega), Nat.le_trans hcolumn (by omega)⟩

/-- A short text has no place that cannot be counted. -/
theorem Place.fits_of_length_lt {cs : List Char} (h : cs.length + 1 < wordLimit) :
    (Place.first.advance cs).position.fits = true := by
  obtain ⟨hline, hcolumn⟩ := Place.position_le .first cs
  have hfirst : Place.first.position = ⟨1, 1⟩ := rfl
  rw [hfirst] at hline hcolumn
  simp only at hline hcolumn
  rw [Position.fits, decide_eq_true_eq]
  omega

/-- Whether a text is short enough for a source. -/
def Lexable (text : List Char) : Prop :=
  byteLength text < wordLimit ∧ (Place.first.advance text).position.fits = true

instance (text : List Char) : Decidable (Lexable text) := inferInstanceAs (Decidable (_ ∧ _))

/-- A part of a text is not longer than it. -/
theorem Lexable.part {before text after : List Char} (h : Lexable (before ++ (text ++ after))) :
    Lexable text := by
  obtain ⟨hsize, hfits⟩ := h
  rw [byteLength_append, byteLength_append] at hsize
  refine ⟨by omega, ?_⟩
  by_cases hwhole : before = [] ∧ after = []
  · obtain ⟨rfl, rfl⟩ := hwhole
    simpa using hfits
  · -- if it is shorter, its size bounds its lines and columns
    have hshort : 0 < before.length + after.length := by
      rcases Classical.not_and_iff_not_or_not.1 hwhole with hne | hne
      · have := List.length_pos_iff.2 hne
        omega
      · have := List.length_pos_iff.2 hne
        omega
    have := length_le_byteLength before
    have := length_le_byteLength after
    have := length_le_byteLength text
    exact Place.fits_of_length_lt (by omega)

/-- The end of a text. -/
def eofOf (text : List Char) : Token :=
  ⟨.eof, .point (byteLength text), (Place.first.advance text).position⟩

/-- What the lexer gives for a text that is one item. -/
def outputOf (text : List Char) : Item → LexOutput
  | .token kind => ⟨⟨#[⟨kind, ⟨0, byteLength text⟩, .first⟩, eofOf text]⟩, []⟩
  | .comment name => ⟨⟨#[eofOf text]⟩, [⟨name, ⟨0, byteLength text⟩⟩]⟩

theorem lexWithComments_eq (source : String) (names : Interner) :
    lexWithComments source names =
      if wordLimit ≤ byteLength source.toList then
        (.error (.error ⟨.sourceTooLarge (byteLength source.toList), .dummy, .first⟩), names)
      else
        match lexText names source.toList with
        | (some e, s) => (.error (.error e), s.names)
        | (none, s) =>
          if s.place.position.fits then
            (.ok ⟨⟨s.tokens.push ⟨.eof, .point s.place.offset, s.place.position⟩⟩, s.comments.toList⟩,
              s.names)
          else (.error (.fault .wordOverflow), s.names) := by
  rw [lexWithComments, ← byteLength_toList]
  rfl

/-- What lexing gives where it succeeds, and that the source is then short enough. -/
theorem lexWithComments_ok {source : String} {names names' : Interner} {output : LexOutput}
    (h : lexWithComments source names = (.ok output, names')) :
    ∃ s, lexText names source.toList = (none, s) ∧ byteLength source.toList < wordLimit ∧
      s.place.position.fits = true ∧ names' = s.names ∧
      output = ⟨⟨s.tokens.push ⟨.eof, .point s.place.offset, s.place.position⟩⟩, s.comments.toList⟩ := by
  rw [lexWithComments_eq] at h
  split at h
  · cases h
  rename_i hsize
  split at h
  · cases h
  rename_i s hrun
  split at h
  · rename_i hfits
    cases h
    exact ⟨s, hrun, Nat.not_le.1 hsize, hfits, rfl, rfl⟩
  · cases h

theorem lex_ok {source : String} {names names' : Interner} {tokens : TokenList}
    (h : lex source names = (.ok tokens, names')) :
    ∃ comments, lexWithComments source names = (.ok ⟨tokens, comments⟩, names') := by
  unfold lex at h
  split at h
  · rename_i output names₁ hlex
    cases h
    exact ⟨output.comments, hlex⟩
  · cases h

section Texts

variable {names : Interner} {text : List Char} {s : Progress} (h : lexText names text = (none, s))
  (hplace : s.place = Place.first.advance text)
include h hplace

theorem lexWithComments_of_lexable (hl : Lexable text) : lexWithComments (String.ofList text) names =
    (.ok ⟨⟨s.tokens.push (eofOf text)⟩, s.comments.toList⟩, s.names) := by
  rw [lexWithComments_eq, String.toList_ofList, if_neg (Nat.not_le.2 hl.1), h]
  dsimp only
  rw [hplace, if_pos hl.2, Place.offset_first_advance]
  rfl

theorem lexWithComments_of_not_lexable (hl : ¬Lexable text) (hnames : s.names = names) :
    ∃ failure, lexWithComments (String.ofList text) names = (.error failure, names) := by
  rw [lexWithComments_eq, String.toList_ofList, h]
  split
  · exact ⟨_, rfl⟩
  · rename_i hsize
    have hfits : ¬s.place.position.fits = true := fun hfits => hl ⟨Nat.not_le.1 hsize, hplace ▸ hfits⟩
    dsimp only
    rw [if_neg hfits, hnames]
    exact ⟨_, rfl⟩

end Texts

/-- A short text that becomes an item is lexed to it. -/
theorem lexWithComments_of_lexText {names names' : Interner} {text : List Char} {i : Item}
    (h : lexText names text = (none, (Progress.empty names).add text i names')) (hl : Lexable text) :
    lexWithComments (String.ofList text) names = (.ok (outputOf text i), names') := by
  have hfirst : Place.first.position = .first := rfl
  have hlex := lexWithComments_of_lexable h (by cases i <;> rfl) hl
  rw [hlex]
  cases i <;> simp [Progress.add, Progress.empty, Place.spanOf_first, hfirst, outputOf]

/-- What the lexer gives for a source that becomes one item or fails. -/
def lexedAs (text : List Char) (names : Interner) (outcome : Except LexError Item × Interner) :
    Except LexFailure LexOutput × Interner :=
  if wordLimit ≤ byteLength text then (.error (.error ⟨.sourceTooLarge (byteLength text), .dummy, .first⟩), names)
  else match outcome with
    | (.error e, names) => (.error (.error e), names)
    | (.ok i, names) =>
      if (Place.first.advance text).position.fits then (.ok (outputOf text i), names)
      else (.error (.fault .wordOverflow), names)

/-- A source that fails at its first piece. -/
theorem lexWithComments_failed {names names' : Interner} {text : List Char} {e : LexError}
    (h : lexText names text = (some e, .empty names')) :
    lexWithComments (String.ofList text) names = lexedAs text names (.error e, names') := by
  rw [lexWithComments_eq, String.toList_ofList, h]
  rfl

/-- A source that is one lexeme is lexed to what becomes of that. -/
theorem lexWithComments_of_scan {names : Interner} {first : Char} {more : List Char} {shape : Shape}
    (h : scan first more = .lexeme shape (first :: more) []) :
    lexWithComments (String.ofList (first :: more)) names = lexedAs (first :: more) names
      (match item names shape (first :: more) with
      | (.ok i, names') => (.ok i, names')
      | (.error kind, names') => (.error ⟨kind, ⟨0, byteLength (first :: more)⟩, .first⟩, names')) := by
  have hlex : lexText names (first :: more) = (Progress.empty names).run (first :: more) := by
    rw [lexText, splitHashBang_of_scan h]
    rfl
  rcases hitem : item names shape (first :: more) with ⟨_ | i, names'⟩
  · rename_i kind
    rw [Progress.run_error h hitem, Progress.errorAt_empty] at hlex
    exact lexWithComments_failed hlex
  · rw [Progress.run_lexeme h hitem, Progress.run_nil] at hlex
    dsimp only
    rw [lexedAs]
    split
    · rename_i hlarge
      rw [lexWithComments_eq, String.toList_ofList, if_pos hlarge]
    · rename_i hsize
      split
      · rename_i hfits
        exact lexWithComments_of_lexText hlex ⟨Nat.not_le.1 hsize, hfits⟩
      · rename_i hfits
        have hplace : ((Progress.empty names).add (first :: more) i names').place =
            Place.first.advance (first :: more) := by cases i <;> rfl
        rw [lexWithComments_eq, String.toList_ofList, if_neg hsize, hlex]
        dsimp only
        rw [hplace, if_neg hfits]
        cases i <;> rfl

end Lexing

open Lexing

/-- The text under a span gives an item and nothing else, in any interner; and the very same in the
interner of the source. -/
def Standalone (names : Interner) (source : List Char) (span : Span) (i : Item) : Prop :=
  (∀ other, lexWithComments (String.ofList (span.slice source)) other =
    (.ok (outputOf (span.slice source) (i.carried names other).1), (i.carried names other).2)) ∧
  i.carried names names = (i, names)

theorem Lexing.LaidOut.standalone {names : Interner} {source : List Char} {span : Span} {i : Item}
    (h : LaidOut names source span i) (hl : Lexable source) : Standalone names source span i := by
  obtain ⟨before, text, after, rfl, rfl, hbecomes⟩ := h
  have hslice : Span.slice ⟨byteLength before, byteLength (before ++ text)⟩
      (before ++ (text ++ after)) = text := by
    rw [Span.slice, sliceBytes_eq_some.2 ⟨before, after, rfl, rfl, rfl⟩]
    rfl
  obtain ⟨halone, hself⟩ := hbecomes names (.refl names)
  refine ⟨fun other => ?_, hself⟩
  rw [hslice]
  exact lexWithComments_of_lexText (halone other) hl.part

/-- The output of the lexer lies over its source.  `tokens` are all tokens but the last. -/
structure LexOutput.LiesOver (output : LexOutput) (source : List Char) (names : Interner)
    (tokens : List Token) : Prop where
  ends : output.tokens.toList = tokens ++ [eofOf source]
  ne_eof : ∀ t ∈ tokens, t.kind ≠ .eof
  /-- In the order of their starts the spans tile the source. -/
  tiles : ∃ spans, spans.Perm (tokens.map Token.span ++ output.comments.map Comment.span) ∧
    Tiles spans source
  tokensAlone : ∀ t ∈ tokens, Standalone names source t.span (.token t.kind)
  commentsAlone : ∀ c ∈ output.comments, Standalone names source c.span (.comment c.text)

/-- The tokens and comments of a source lie over it side by side, with blanks between them and the end
behind them; and each of them depends on its own text alone. -/
theorem lex_tiles {source : String} {names names' : Interner} {output : LexOutput}
    (h : lexWithComments source names = (.ok output, names')) :
    ∃ tokens, output.LiesOver source.toList names' tokens := by
  obtain ⟨s, hrun, hsize, hfits, rfl, rfl⟩ := lexWithComments_ok h
  have covers := (Progress.Covers.start names source.toList).run hrun
  rw [splitHashBang_append] at covers
  have hsound := (start_sound names (splitHashBang source.toList).1).run (splitHashBang source.toList).2
  rw [show (start names (splitHashBang source.toList).1).run (splitHashBang source.toList).2 = _ from hrun]
    at hsound
  have hl : Lexable source.toList := ⟨hsize, covers.place ▸ hfits⟩
  refine ⟨s.tokens.toList, ?_, fun t ht => (hsound t (Array.mem_def.2 ht)).ne_eof, covers.spans,
    fun t ht => (covers.tokens t ht).standalone hl, fun c hc => (covers.comments c hc).standalone hl⟩
  rw [eofOf, ← covers.offset, ← covers.place]
  exact Array.toList_push

/-- A first line, a name and a comment. -/
theorem hashBang_name_comment_tiles :
    ∃ output names', lexWithComments "#!s\r\nx\uFEFF'λ'//c" .new = (.ok output, names') ∧
      ∃ tokens, output.LiesOver "#!s\r\nx\uFEFF'λ'//c".toList names' tokens := by
  have succeeds : (lexWithComments "#!s\r\nx\uFEFF'λ'//c" .new).1.isOk = true := by decide +kernel
  generalize hlex : lexWithComments "#!s\r\nx\uFEFF'λ'//c" .new = lexed at succeeds
  obtain ⟨_ | output, names'⟩ := lexed
  · cases succeeds
  · exact ⟨output, names', rfl, lex_tiles hlex⟩

end SolSyntax
