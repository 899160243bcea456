import SolSyntax.Proofs.LiteralText
import SolSyntax.Proofs.Tiling

/-!
# Tokens written out and lexed again

Every kind of token but floats, doc-strings, line breaks, the `#!` line and the quote has a spelling that
lexes to it where a space or nothing follows.  So the spellings of a list of kinds, with single spaces
between them, lex to that list.

Principal results: `lexesTo_of_isSpellable` — a single kind; `lex_respelled` — a list of kinds.
-/

namespace SolSyntax

open Lexing

/-! ## Spellings -/

namespace TokenKind

/-- How a kind is written. -/
def spelling (names : Interner) : TokenKind → List Char
  | .ident n => (names.lookup n).toList
  | .symbol n => '\x60' :: (names.lookup n).toList
  | .operator n => (names.lookup n).toList
  | .int l => l.text.toList
  | .string n => quoted '\x22' (names.lookup n).toList
  | .char c => quoted '\x27' [c]
  | k => (k.tag.fixedText?.getD "").toList

/-- The kinds with a spelling that lexes to them. -/
inductive IsSpellable (names : Interner) : TokenKind → Prop
  | fixed {k : TokenKind} (hk : k.tag.fixedText?.isSome = true) (hquote : k ≠ .quote) : IsSpellable names k
  | ident {n : Name} (text : String) (hn : names.find? text = some n) (hne : text ≠ "")
      (hstart : ∀ c ∈ text.toList.head?, isNameStart c = true)
      (hchars : ∀ c ∈ text.toList, isNameChar c = true) (hkeyword : keyword? text = none) :
      IsSpellable names (.ident n)
  | symbol {n : Name} (text : String) (hn : names.find? text = some n) (hne : text ≠ "")
      (hchars : ∀ c ∈ text.toList, isOperatorChar c = true) : IsSpellable names (.symbol n)
  | operator {n : Name} (text : String) (hn : names.find? text = some n) (hne : text ≠ "")
      (hchars : ∀ c ∈ text.toList, isOperatorChar c = true) (hreserved : reservedOperator? text = none)
      (hcomment : text.toList.take 2 ≠ ['/', '/']) : IsSpellable names (.operator n)
  | int {l : IntLit} (hl : l.IsReadable) : IsSpellable names (.int l)
  | string {n : Name} (text : String) (hn : names.find? text = some n) : IsSpellable names (.string n)
  | char (c : Char) : IsSpellable names (.char c)

end TokenKind

/-- A text that lexes to a kind, alone or before a space. -/
structure Lexing.LexesTo (names : Interner) (text : List Char) (k : TokenKind) : Prop where
  scans : ∃ first more shape, text = first :: more ∧ isBlank first = false ∧
    (∀ v, Ends v → scan first (more ++ v) = .lexeme shape text v) ∧
    item names shape text = (.ok (.token k), names)

namespace Lexing

variable {names : Interner}

theorem lookup_of_find? {text : String} {n : Name} (h : names.find? text = some n) :
    names.lookup n = text := by
  rw [Interner.lookup, Array.getD_eq_getD_getElem?, Interner.find?_eq_some h]
  rfl

theorem intern_of_find? {text : String} {n : Name} (h : names.find? text = some n) :
    names.intern text = (n, names) := by
  rw [Interner.intern, h]

theorem named_of_find? {text : String} {n : Name} (h : names.find? text = some n) (item : Name → Item) :
    named names text.toList item = (.ok (item n), names) := by
  rw [named, String.ofList_toList, intern_of_find? h]

/-- What is no line break begins with no blank. -/
theorem isBlank_eq_false_of_scan {first : Char} {cs text rest : List Char} {shape : Shape}
    (h : scan first cs = .lexeme shape text rest) (hne : shape ≠ .lineBreak) : isBlank first = false := by
  unfold scan at h
  split at h
  · cases h
    exact (hne rfl).elim
  split at h
  · cases h
  · rename_i hblank
    simpa using hblank

/-- The lexemes that end where a space follows, and do not begin with a blank. -/
def Shape.isSpaced : Shape → Bool
  | .comment | .lineBreak | .quote | .openString | .openChar => false
  | _ => true

theorem Shape.allows_of_isSpaced {shape : Shape} (h : shape.isSpaced = true) {v : List Char} (hv : Ends v) :
    shape.Allows v := by
  cases shape <;> first | (cases h; done) | exact hv

/-- It is enough to scan the text on its own. -/
theorem LexesTo.of_scan {text : List Char} {k : TokenKind} {first : Char} {more : List Char} {shape : Shape}
    (htext : text = first :: more) (hscan : scan first more = .lexeme shape (first :: more) [])
    (hitem : item names shape (first :: more) = (.ok (.token k), names))
    (hshape : shape.isSpaced = true) : LexesTo names text k := by
  subst htext
  have hne : shape ≠ .lineBreak := by
    rintro rfl
    cases hshape
  exact ⟨first, more, shape, rfl, isBlank_eq_false_of_scan hscan hne,
    fun v hv => scan_again hscan (Shape.allows_of_isSpaced hshape hv), hitem⟩

theorem lexesTo_fixed {k : TokenKind} (hk : k.tag.fixedText?.isSome = true) (hquote : k ≠ .quote) :
    LexesTo names (k.spelling names) k := by
  cases k
  case quote => exact (hquote rfl).elim
  -- the other fixed texts are scanned by evaluation
  all_goals first
    | (cases hk; done)
    | exact .of_scan rfl rfl rfl rfl

/-! ### Names and operators -/

/-- No blank begins a name. -/
theorem isBlank_of_isNameStart {c : Char} (h : isNameStart c = true) : isBlank c = false := by
  cases hb : isBlank c with
  | false => rfl
  | true =>
    simp only [isBlank, Bool.or_eq_true, beq_iff_eq, or_assoc] at hb
    rcases hb with rfl | rfl | rfl | rfl | rfl | rfl | rfl | rfl <;> exact absurd h (by decide)

/-- What begins a name begins no line break. -/
theorem beginsLineBreak_of_isNameStart {c : Char} (h : isNameStart c = true) (cs : List Char) :
    beginsLineBreak c cs = false := by
  cases hb : beginsLineBreak c cs with
  | false => rfl
  | true =>
    simp only [beginsLineBreak, Bool.or_eq_true, Bool.and_eq_true, beq_iff_eq] at hb
    rcases hb with (rfl | rfl) | ⟨rfl, -⟩ <;> exact absurd h (by decide)

/-- What begins a name begins a word. -/
theorem scan_name {first : Char} {more : List Char} (h : isNameStart first = true)
    (hmore : ∀ c ∈ more, isNameChar c = true) :
    scan first more = .lexeme .word (first :: more) [] := by
  have hrun := run_of_stops hmore (v := []) fun c hc => by cases hc
  rw [List.append_nil] at hrun
  simp [scan, beginsLineBreak_of_isNameStart h, isBlank_of_isNameStart h, h, hrun]

theorem lexesTo_ident {n : Name} {text : String} (hn : names.find? text = some n) (hne : text ≠ "")
    (hstart : ∀ c ∈ text.toList.head?, isNameStart c = true)
    (hchars : ∀ c ∈ text.toList, isNameChar c = true) (hkeyword : TokenKind.keyword? text = none) :
    LexesTo names ((TokenKind.ident n).spelling names) (.ident n) := by
  obtain ⟨first, more, htext⟩ := List.exists_cons_of_ne_nil fun e => hne (String.toList_eq_nil_iff.1 e)
  have hspelling : (TokenKind.ident n).spelling names = first :: more := by
    rw [← htext]
    exact congrArg String.toList (lookup_of_find? hn)
  rw [htext] at hstart hchars
  refine .of_scan hspelling (scan_name (hstart first rfl) (List.forall_mem_cons.1 hchars).2) ?_ rfl
  rw [← htext, item, String.ofList_toList, hkeyword]
  exact named_of_find? hn _

theorem scan_operator {first : Char} (h : isOperatorChar first = true) (cs : List Char) :
    scan first cs = scanOperator first cs := by
  unfold isOperatorChar at h
  split at h <;> first | rfl | cases h

theorem lexesTo_operator {n : Name} {text : String} (hn : names.find? text = some n) (hne : text ≠ "")
    (hchars : ∀ c ∈ text.toList, isOperatorChar c = true)
    (hreserved : TokenKind.reservedOperator? text = none)
    (hcomment : text.toList.take 2 ≠ ['/', '/']) :
    LexesTo names ((TokenKind.operator n).spelling names) (.operator n) := by
  obtain ⟨first, more, htext⟩ := List.exists_cons_of_ne_nil fun e => hne (String.toList_eq_nil_iff.1 e)
  have hspelling : (TokenKind.operator n).spelling names = first :: more := by
    rw [← htext]
    exact congrArg String.toList (lookup_of_find? hn)
  rw [htext] at hchars hcomment
  obtain ⟨hfirst, hmore⟩ := List.forall_mem_cons.1 hchars
  have hrun := run_of_stops hmore (v := []) fun c hc => by cases hc
  rw [List.append_nil] at hrun
  have hscan : scan first more = .lexeme .operator (first :: more) [] := by
    rw [scan_operator hfirst]
    unfold scanOperator
    split
    · exact (hcomment rfl).elim
    · rw [hrun]
  refine .of_scan hspelling hscan ?_ rfl
  rw [← htext, item, String.ofList_toList, hreserved]
  exact named_of_find? hn _

theorem lexesTo_symbol {n : Name} {text : String} (hn : names.find? text = some n) (hne : text ≠ "")
    (hchars : ∀ c ∈ text.toList, isOperatorChar c = true) :
    LexesTo names ((TokenKind.symbol n).spelling names) (.symbol n) := by
  have hspelling : (TokenKind.symbol n).spelling names = '\x60' :: text.toList := by
    rw [TokenKind.spelling, lookup_of_find? hn]
  have hrun := run_of_stops hchars (v := []) fun c hc => by cases hc
  rw [List.append_nil] at hrun
  have hscan : scan '\x60' text.toList = .lexeme .symbol ('\x60' :: text.toList) [] := by
    show scanSymbol _ = _
    unfold scanSymbol
    rw [hrun]
    split
    · rename_i h
      exact (hne (String.toList_eq_nil_iff.1 (Prod.mk.inj h).1)).elim
    · rename_i h
      obtain ⟨rfl, rfl⟩ := Prod.mk.inj h
      rfl
  exact .of_scan hspelling hscan (named_of_find? hn fun n => .token (.symbol n)) rfl

/-! ### Literals -/

theorem lexesTo_int {l : IntLit} (hl : l.IsReadable) :
    LexesTo names ((TokenKind.int l).spelling names) (.int l) := by
  obtain ⟨first, more, htext, hscan⟩ := scan_intText l
  refine .of_scan htext hscan ?_ rfl
  rw [← htext, item, readInt_text hl]
  rfl

theorem lexesTo_string {n : Name} {text : String} (hn : names.find? text = some n) :
    LexesTo names ((TokenKind.string n).spelling names) (.string n) := by
  have hspelling : (TokenKind.string n).spelling names = quoted '\x22' text.toList := by
    rw [TokenKind.spelling, lookup_of_find? hn]
  refine .of_scan hspelling (scan_quotedString text.toList []) ?_ rfl
  show item names .string (quoted '\x22' text.toList) = _
  rw [item, unquoted_quoted, unescape_escaped (.inl rfl)]
  exact named_of_find? hn _

theorem lexesTo_char (c : Char) : LexesTo names ((TokenKind.char c).spelling names) (.char c) := by
  have hspelling : (TokenKind.char c).spelling names = '\x27' :: (escaped '\x27' c ++ ['\x27']) := by
    rw [TokenKind.spelling, quoted, List.flatMap_singleton]
  have hscan := scan_quotedChar c []
  rw [quoted, List.flatMap_singleton] at hscan
  refine .of_scan hspelling hscan ?_ rfl
  rw [← hspelling]
  show item names .char (quoted '\x27' [c]) = _
  rw [item, unescapeChar_escaped]
  rfl

theorem lexesTo_of_isSpellable {k : TokenKind} (h : k.IsSpellable names) :
    LexesTo names (k.spelling names) k := by
  cases h with
  | fixed hk hquote => exact lexesTo_fixed hk hquote
  | ident text hn hne hstart hchars hkeyword => exact lexesTo_ident hn hne hstart hchars hkeyword
  | symbol text hn hne hchars => exact lexesTo_symbol hn hne hchars
  | operator text hn hne hchars hreserved hcomment =>
    exact lexesTo_operator hn hne hchars hreserved hcomment
  | int hl => exact lexesTo_int hl
  | string text hn => exact lexesTo_string hn
  | char c => exact lexesTo_char c

/-! ## Lists of kinds -/

/-- The spellings of some kinds, with single spaces between them. -/
def respelled (names : Interner) (kinds : List TokenKind) : List Char :=
  [' '].intercalate (kinds.map (·.spelling names))

/-- After a spelling comes nothing, or a space and the others. -/
theorem respelled_cons (names : Interner) (k : TokenKind) (kinds : List TokenKind) :
    ∃ v, respelled names (k :: kinds) = k.spelling names ++ v ∧ Ends v ∧
      (kinds = [] ∧ v = [] ∨ kinds ≠ [] ∧ v = ' ' :: respelled names kinds) := by
  cases kinds with
  | nil =>
    refine ⟨[], by simp [respelled, List.intercalate], fun c hc => ?_, .inl ⟨rfl, rfl⟩⟩
    cases hc
  | cons k' kinds =>
    refine ⟨_, ?_, fun c hc => ?_, .inr ⟨by simp, rfl⟩⟩
    · simp [respelled, List.intercalate]
    · cases hc
      rfl

/-- No spelling begins with a blank. -/
theorem stops_respelled {kinds : List TokenKind} (h : ∀ k ∈ kinds, LexesTo names (k.spelling names) k) :
    Stops isBlank (respelled names kinds) := by
  cases kinds with
  | nil => exact fun c hc => by cases hc
  | cons k kinds =>
    obtain ⟨v, hv, -⟩ := respelled_cons names k kinds
    obtain ⟨first, more, shape, htext, hblank, -⟩ := h k List.mem_cons_self
    rw [hv, htext]
    rintro c ⟨⟩
    exact hblank

/-- Spellings do not begin with `#!`, since a space comes behind a hash. -/
theorem splitHashBang_respelled {kinds : List TokenKind}
    (h : ∀ k ∈ kinds, LexesTo names (k.spelling names) k) :
    splitHashBang (respelled names kinds) = ([], respelled names kinds) := by
  cases kinds with
  | nil => rfl
  | cons k kinds =>
    obtain ⟨v, htext, hv, -⟩ := respelled_cons names k kinds
    obtain ⟨first, more, shape, hspelling, -, hscan, -⟩ := h k List.mem_cons_self
    rw [htext, hspelling]
    refine splitHashBang_none fun rest heq => ?_
    obtain ⟨rfl, hmore⟩ := List.cons.inj heq
    have halone := hscan [] fun c hc => by cases hc
    rw [List.append_nil, hspelling, show scan '#' more = .lexeme (.sign .hash) ['#'] more from rfl]
      at halone
    cases halone
    have hmore : v = '!' :: rest := hmore
    exact absurd (hv '!' (by rw [hmore]; rfl)) (by decide)

/-- A single space is a blank of its own. -/
theorem scan_space {cs : List Char} (h : Stops isBlank cs) : scan ' ' cs = .blank [' '] cs := by
  have hrun : run isBlank ([] ++ cs) = ([], cs) := run_of_stops (fun c hc => by cases hc) h
  rw [List.nil_append] at hrun
  simp [scan, beginsLineBreak, isBlank, hrun]

/-- The spellings are lexed one after the other. -/
theorem run_respelled {kinds : List TokenKind} (h : ∀ k ∈ kinds, LexesTo names (k.spelling names) k)
    {s : Progress} (hs : s.names = names) :
    ∃ s', s.run (respelled names kinds) = (none, s') ∧ s'.names = names ∧
      s'.place = s.place.advance (respelled names kinds) ∧
      s'.tokens.toList.map Token.kind = s.tokens.toList.map Token.kind ++ kinds := by
  induction kinds generalizing s with
  | nil => exact ⟨s, Progress.run_nil s, hs, rfl, (List.append_nil _).symm⟩
  | cons k kinds ih =>
    obtain ⟨hk, hkinds⟩ := List.forall_mem_cons.1 h
    obtain ⟨v, htext, hv, hrest⟩ := respelled_cons names k kinds
    obtain ⟨first, more, shape, hspelling, -, hscan, hitem⟩ := hk
    have hitem' : item s.names shape (k.spelling names) = (.ok (.token k), names) := by
      rw [hs]
      exact hitem
    have hstep := Progress.run_lexeme (hscan v hv) hitem'
    rw [← List.cons_append, ← hspelling, ← htext] at hstep
    rw [hstep]
    obtain ⟨rfl, rfl⟩ | ⟨-, rfl⟩ := hrest
    · refine ⟨_, Progress.run_nil _, rfl, ?_, by simp [Progress.add]⟩
      rw [htext, List.append_nil]
      rfl
    · have hblank : scan ' ' (respelled names kinds) = .blank [' '] (respelled names kinds) :=
        scan_space (stops_respelled hkinds)
      rw [Progress.run_blank hblank]
      obtain ⟨s', hrun, hnames, hplace, hkinds'⟩ := ih hkinds (s := { s.add (k.spelling names)
        (.token k) names with place := (s.add (k.spelling names) (.token k) names).place.advance [' '] }) rfl
      refine ⟨s', hrun, hnames, ?_, ?_⟩
      · rw [hplace, htext, Place.advance_append]
        rfl
      · rw [hkinds']
        simp [Progress.add]

end Lexing

/-- Spellings with single spaces between them lex to what they spell, unless they are too long. -/
theorem lex_respelled {names : Interner} {kinds : List TokenKind}
    (h : ∀ k ∈ kinds, k.IsSpellable names) :
    ∃ tokens failure, tokens.kinds = kinds ++ [.eof] ∧
      lex (String.ofList (respelled names kinds)) names =
        (if Lexable (respelled names kinds) then .ok tokens else .error failure, names) := by
  have spells : ∀ k ∈ kinds, LexesTo names (k.spelling names) k := fun k hk => lexesTo_of_isSpellable (h k hk)
  obtain ⟨s, hrun, hnames, hplace, hkinds⟩ := run_respelled spells (s := .empty names) rfl
  have htext : lexText names (respelled names kinds) = (none, s) := by
    rw [lexText, splitHashBang_respelled spells]
    exact hrun
  have hkinds : TokenList.kinds ⟨s.tokens.push (eofOf (respelled names kinds))⟩ = kinds ++ [.eof] := by
    simpa [TokenList.kinds, TokenList.toList, Progress.empty, eofOf] using hkinds
  by_cases hl : Lexable (respelled names kinds)
  · refine ⟨_, .fault .wordOverflow, hkinds, ?_⟩
    rw [if_pos hl, lex, lexWithComments_of_lexable htext hplace hl, hnames]
  · obtain ⟨failure, hlex⟩ := lexWithComments_of_not_lexable htext hplace hl hnames
    refine ⟨_, failure, hkinds, ?_⟩
    rw [if_neg hl, lex, hlex]

/-- Texts of a name, of an operator and of a string. -/
def someNames : Interner := ⟨#["x'", "+//", "a\"\n"]⟩

/-- A hash, those texts as names, operators and strings, and two literals. -/
def someKinds : List TokenKind :=
  [.hash, .ident ⟨0⟩, .symbol ⟨1⟩, .operator ⟨1⟩, .int ⟨255, .hex, some .u8⟩, .string ⟨2⟩, .char '\x27']

theorem someKinds_respelled : ∃ tokens, tokens.kinds = someKinds ++ [.eof] ∧
    lex (String.ofList (respelled someNames someKinds)) someNames = (.ok tokens, someNames) := by
  have spellable : ∀ k ∈ someKinds, k.IsSpellable someNames := by
    simp only [someKinds, List.forall_mem_cons]
    have operators : ∀ c ∈ "+//".toList, isOperatorChar c = true := List.all_eq_true.1 rfl
    refine ⟨.fixed rfl (by decide),
      .ident "x'" (by decide +kernel) (by decide) (fun c hc => by cases hc; rfl)
        (List.all_eq_true.1 rfl) (by decide),
      .symbol "+//" (by decide +kernel) (by decide) operators,
      .operator "+//" (by decide +kernel) (by decide) operators (by decide) (by decide),
      .int fun _ s hs => by cases hs; rfl, .string "a\"\n" (by decide +kernel), .char _,
      fun k hk => by cases hk⟩
  have short : Lexable (respelled someNames someKinds) := by decide +kernel
  obtain ⟨tokens, failure, hkinds, hlex⟩ := lex_respelled spellable
  rw [if_pos short] at hlex
  exact ⟨tokens, hkinds, hlex⟩

end SolSyntax
