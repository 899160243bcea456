import SolSyntax.Proofs.Spans

/-!
# Where errors stand

An error has a span, a position and what was found; all three are those of one token.  The only other
error is that about a block in a domain: it is noticed behind the arrow, so its span and what was found
are those of the brace that opens the block, and its position is that of the token behind the arrow.

Principal results: `Locates` — a property of every production up to `declLine`, of which only those with a
domain need a proof; `retag_error` — the block that does not fit a type is written before the arrow;
`parseSource_error_places` — where the errors of a source stand.
-/

namespace SolSyntax

/-! ## Errors and tokens -/

/-- Span, position and what was found are those of a token. -/
structure SyntaxError.Names (e : SyntaxError) (t : Token) : Prop where
  start : e.span.start = t.span.start
  found : e.found = t.kind.displayName
  position : e.position = t.position

/-- A block stands in the domain before an arrow: the span begins with the brace `t`, which is what was
found, but the position is that of `u`, the token behind the arrow. -/
structure SyntaxError.BlamesBlock (e : SyntaxError) (ts : TokenList) (t u : Token) : Prop where
  start : e.span.start = t.span.start
  found : e.found = t.kind.displayName
  position : e.position = u.position
  brace : t.tag = .lbrace
  /-- The brace comes before the arrow, and the arrow right before `u`. -/
  order : ∃ i j, i < j ∧ ts.get? i = some t ∧ ts.tagAt j = .arrow ∧ ts.get? (j + 1) = some u

/-- Where an error stands among the tokens. -/
inductive SyntaxError.Located (ts : TokenList) (e : SyntaxError) : Prop
  | token {t} : e.code ≠ .blockInType → t ∈ ts.toList → e.Names t → Located ts e
  | block {t u} : e.code = .blockInType → e.BlamesBlock ts t u → Located ts e

namespace SyntaxError.Located

variable {ts : TokenList} {e : SyntaxError}

theorem within (h : e.Located ts) (what : String) : (e.within what).Located ts := by
  cases h with
  | token hcode ht hnames => exact .token hcode ht ⟨hnames.start, hnames.found, hnames.position⟩
  | block hcode h => exact .block hcode ⟨h.start, h.found, h.position, h.brace, h.order⟩

theorem withOpened (h : e.Located ts) (opened : Span) : (e.withOpened opened).Located ts := by
  cases h with
  | token hcode ht hnames => exact .token hcode ht ⟨hnames.start, hnames.found, hnames.position⟩
  | block hcode h => exact .block hcode ⟨h.start, h.found, h.position, h.brace, h.order⟩

end SyntaxError.Located

namespace Grammar

open Parse

variable {ts : TokenList} {s t : State}

/-- At a token of a list that ends in `eof`. -/
structure At (ts : TokenList) (s : State) : Prop where
  ends : ts.EndsInEof
  tokens : s.cursor.tokens = ts
  lt : s.cursor.position < ts.size

namespace At

theorem inside (h : At ts s) : Inside ts s := ⟨h.tokens, Nat.le_of_lt h.lt⟩

theorem get?_current (h : At ts s) : ts.get? s.cursor.position = some s.cursor.current := by
  obtain ⟨tok, htok⟩ := TokenList.exists_get? h.lt
  rw [Cursor.current, h.tokens, htok]
  rfl

/-- The last token is an end, so there is a token behind any other. -/
theorem succ_lt (h : At ts s) (hend : ¬s.cursor.isAtEnd = true) : s.cursor.position + 1 < ts.size :=
  declStart_lt h.ends h.tokens (Bool.eq_false_iff.2 hend)

/-- Another place in the same tokens. -/
theorem move (h : At ts s) {c : Cursor} (htokens : c.tokens = s.cursor.tokens) (hlt : c.position < ts.size)
    (arena : Arena) (names : Interner) : At ts ⟨c, arena, names⟩ := ⟨h.ends, htokens.trans h.tokens, hlt⟩

theorem note (h : At ts s) (set : TagSet) : At ts { s with cursor := s.cursor.note set } :=
  ⟨h.ends, h.tokens, h.lt⟩

/-- Nodes and names do not matter. -/
theorem store (h : At ts s) (arena : Arena) (names : Interner) : At ts ⟨s.cursor, arena, names⟩ :=
  h.move rfl h.lt arena names

/-- A complaint names the current token. -/
theorem complain (h : At ts s) {c : Complaint} (hc : c.code ≠ .blockInType) :
    (s.cursor.complain c).Located ts :=
  .token hc (TokenList.mem_of_get? h.get?_current) ⟨rfl, rfl, rfl⟩

end At

/-- A result at a token, or with an error that stands at one. -/
def Lands (ts : TokenList) : EStateM.Result Failure State α → Prop
  | .ok _ t => At ts t
  | .error (.error e) _ => e.Located ts
  | .error .exhausted _ => True

/-- What comes after a step is asked for only if that succeeds. -/
theorem Lands.bind {p : Parse α} {f : α → Parse β} (hp : Lands ts (p s))
    (hf : ∀ a t, p s = .ok a t → At ts t → Lands ts (f a t)) : Lands ts ((p >>= f) s) := by
  cases e : p s with
  | ok a t =>
    rw [e] at hp
    rw [bind_of_ok e]
    exact hf a t e hp
  | error x t =>
    rw [e] at hp
    rw [bind_of_error e]
    cases x <;> exact hp

/-- A step that goes from token to token, and whose errors stand at tokens. -/
class Locates (ts : TokenList) (p : Parse α) : Prop where
  lands : ∀ s, At ts s → Lands ts (p s)

namespace Locates

variable {p : Parse α}

/-- A step on the cursor alone. -/
theorem ofStep {f : Cursor → α × Cursor}
    (h : ∀ s, At ts s → (f s.cursor).2.tokens = s.cursor.tokens ∧ (f s.cursor).2.position < ts.size) :
    Locates ts (step f) :=
  ⟨fun s hs => hs.move (h s hs).1 (h s hs).2 _ _⟩

theorem bind [hp : Locates ts p] {f : α → Parse β} [hf : ∀ a, Locates ts (f a)] : Locates ts (p >>= f) :=
  ⟨fun s hs => (hp.lands s hs).bind fun a t _ ht => (hf a).lands t ht⟩

theorem within [hp : Locates ts p] (what : Construct) : Locates ts (within what p) := by
  refine ⟨fun s hs => ?_⟩
  have h := hp.lands s hs
  unfold Parse.within
  cases e : p s with
  | ok a t =>
    rw [e] at h
    exact h
  | error x t =>
    rw [e] at h
    cases x with
    | error x => exact SyntaxError.Located.within h _
    | exhausted => trivial

/-! ### Asking and moving -/

theorem check (tag : Tag) : Locates ts (check tag) := by
  refine ofStep fun s hs => ?_
  unfold Cursor.check
  split <;> exact ⟨rfl, hs.lt⟩

theorem checkSet (set : TagSet) : Locates ts (checkSet set) := by
  refine ofStep fun s hs => ?_
  unfold Cursor.checkSet
  split <;> exact ⟨rfl, hs.lt⟩

theorem advance : Locates ts advance := by
  refine ofStep fun s hs => ?_
  unfold Cursor.advance
  by_cases hend : s.cursor.isAtEnd = true
  · rw [if_pos hend]
    exact ⟨rfl, hs.lt⟩
  · rw [if_neg hend]
    exact ⟨rfl, hs.succ_lt hend⟩

/-- No class of tokens that lacks `eof` leads past the end. -/
theorem skipFrom_lt (hT : ts.EndsInEof) {q : Tag → Bool} (hq : q .eof = false) {i : Nat}
    (hi : i < ts.size) : Cursor.skipFrom ts q i < ts.size := by
  have := Cursor.skipFrom_le_stop hq hT.tagAt (Nat.le_sub_one_of_lt hi)
  omega

theorem skipNewlines : Locates ts skipNewlines := by
  refine ofStep fun s hs => ⟨rfl, ?_⟩
  show Cursor.skipFrom s.cursor.tokens _ s.cursor.position < ts.size
  rw [hs.tokens]
  exact skipFrom_lt hs.ends rfl hs.lt

theorem eatSeparators : Locates ts eatSeparators := by
  refine ofStep fun s hs => ?_
  unfold Cursor.eatSeparators
  dsimp only
  split
  · exact ⟨rfl, hs.lt⟩
  · refine ⟨rfl, ?_⟩
    show Cursor.skipFrom s.cursor.tokens _ s.cursor.position < ts.size
    rw [hs.tokens]
    exact skipFrom_lt hs.ends rfl hs.lt

theorem expect (tag : Tag) : Locates ts (expect tag) := by
  refine ⟨fun s hs => ?_⟩
  unfold Grammar.expect tryStep Cursor.expect Cursor.check
  by_cases h : s.cursor.isAt tag = true
  · simp only [if_pos h]
    exact advance.lands s hs
  · simp only [if_neg h]
    exact (hs.note (.single tag)).complain (c := .expectedToken tag) nofun

theorem expectIdent : Locates ts expectIdent := by
  refine ⟨fun s hs => ?_⟩
  have hadv := advance.lands s hs
  unfold Grammar.expectIdent tryStep Cursor.expectIdent
  split
  · rename_i i c h
    split at h <;> cases h <;> exact hadv
  · rename_i e c h
    split at h
    · cases h
    · cases h
    · cases h
      exact (hs.note .identStart).complain (by decide)

/-! ### Productions -/

instance : Sequential fun _ => Locates ts where
  pure _ := ⟨fun _ hs => hs⟩
  bind _ _ := bind
  exhausted := ⟨fun _ _ => trivial⟩
  within what _ := within what
  bounded h := ⟨fun s => (h s.bound).lands s⟩

instance : Closed fun _ => Locates ts where
  look _ := ⟨fun _ hs => hs⟩
  note _ := ofStep fun _ hs => ⟨rfl, hs.lt⟩
  check := check
  checkSet := checkSet
  advance := advance
  expect := expect
  expectIdent := expectIdent
  skipNewlines := skipNewlines
  eatSeparators := eatSeparators
  fail hc := ⟨fun _ hs => hs.complain hc⟩
  unclosed close opening := ⟨fun _ hs => (hs.complain (c := .unclosed close) nofun).withOpened opening⟩
  exprSpan _ := ⟨fun _ hs => hs⟩
  patternSpan _ := ⟨fun _ hs => hs⟩
  intern _ := ⟨fun _ hs => hs.store _ _⟩
  isClosedForm _ := ⟨fun _ hs => hs⟩
  isOpenIf _ := ⟨fun _ hs => hs⟩

theorem newExpr (kind : ExprKind) (span : Span) : Locates ts (newExpr kind span) := ⟨fun _ hs => hs.store _ _⟩

instance : Storing fun _ => Locates ts where
  newPattern _ _ := ⟨fun _ hs => hs.store _ _⟩
  newExpr kind _ := newExpr kind

instance : Binding fun _ => Locates ts := ⟨newExpr⟩

instance [h : Has (fun _ => Locates ts) p] : Locates ts p := h.has

instance (priority := low) [h : Locates ts p] : Has (fun _ => Locates ts) p := ⟨h⟩

end Locates

/-! ## Blocks in domains -/

/-- The expression that a loop stops at. -/
theorem forEach_error {f : ExprId → Arena → Except Arena.BlockInType Unit × Arena}
    (hf : ∀ (id : ExprId) (a : Arena), a.Retains (f id a).2) {ids : List ExprId} {a a' : Arena}
    {b : Arena.BlockInType} (h : Arena.forEach f ids a = (.error b, a')) :
    ∃ id ∈ ids, ∃ c d, a.Retains c ∧ f id c = (.error b, d) := by
  induction ids generalizing a with
  | nil => cases h
  | cons id ids ih =>
    unfold Arena.forEach at h
    split at h
    · rename_i c hc
      obtain ⟨id', hmem, c', d, hr, hd⟩ := ih h
      have first := hf id a
      rw [hc] at first
      exact ⟨id', List.mem_cons_of_mem _ hmem, c', d, first.trans hr, hd⟩
    · rename_i e c hc
      cases h
      exact ⟨id, List.mem_cons_self, a, _, .refl _, hc⟩

/-- An expression that cannot be read as a type holds a block, which is written with some of its tokens,
a brace first. -/
theorem retag_error {ts : TokenList} {fuel : Nat} {id : ExprId} {a a' : Arena} {b : Arena.BlockInType} {i j : Nat}
    (hw : Written ts a [.part (.expr id)] i j) (h : Arena.retag fuel id a = (.error b, a')) :
    ∃ k l, i ≤ k ∧ l ≤ j ∧ ts.tagAt k = .lbrace ∧ ts.Covers k l b.span := by
  induction fuel generalizing id a a' i j with
  | zero => cases h
  | succ fuel ih =>
    obtain ⟨row, hwrites, hparts, hrow⟩ := hw.exists_row
    -- a part that cannot be read as a type stands among the tokens of the whole
    have inner : ∀ {ids : List ExprId} {c : Arena}, a.Retains c →
        (∀ id' ∈ ids, Node.expr id' ∈ partsIn row) →
        Arena.forEach (Arena.retag fuel) ids c = (.error b, a') →
        ∃ k l, i ≤ k ∧ l ≤ j ∧ ts.tagAt k = .lbrace ∧ ts.Covers k l b.span := by
      intro ids c hc hids hloop
      obtain ⟨id', hmem, d, d', hd, hid⟩ := forEach_error (Arena.Retains.retag fuel) hloop
      obtain ⟨i', j', hi, hj, hw'⟩ := hrow.exists_part (hids id' hmem)
      obtain ⟨k, l, hk, hl, hbrace, hcovers⟩ := ih (hw'.mono (hc.trans hd)) hid
      exact ⟨k, l, Nat.le_trans hi hk, Nat.le_trans hl hj, hbrace, hcovers⟩
    cases hwrites with
    | @expr _ e he =>
      unfold Arena.retag at h
      rw [he, Option.map_some] at h
      split at h <;> rename_i hkind
      case h_1 callee args block =>
        rw [Option.some.injEq] at hkind
        cases h
        obtain ⟨k, l, hk, hl, hblock⟩ := hrow.exists_part (x := .block block) (by simp [hkind, ExprKind.signs])
        obtain ⟨_, hbraces, -, hrow'⟩ := hblock.exists_row
        cases hbraces
        cases hrow' with
        | token hbrace _ => exact ⟨k, l, hk, hl, List.mem_singleton.1 hbrace, hblock.covers⟩
      case h_2 callee args =>
        rw [Option.some.injEq] at hkind
        exact inner (.setKind he hkind) (by simp +contextual [hkind, ExprKind.signs, partsIn]) h
      case h_8 => cases h
      all_goals
        rw [Option.some.injEq] at hkind
        exact inner (.refl a) (by simp [hkind, ExprKind.signs]) h

/-! ## Expressions -/

/-- Readers whose errors stand at tokens, and which take the tokens of what they give. -/
class Rules.Locates (ts : TokenList) (r : Rules) : Prop where
  inOrder : ts.InOrder
  read : r.Read ts
  expr : ∀ ctx, Grammar.Locates ts (r.expr ctx)
  arrow : ∀ ctx, Grammar.Locates ts (r.arrow ctx)
  block : Grammar.Locates ts r.block

namespace Locates

variable {r : Rules} [h : r.Locates ts] (ctx : Context)

instance : r.Have fun _ => Locates ts := ⟨h.expr, h.arrow, h.block⟩

/-- The domain comes before the arrow, and so does a block in it. -/
theorem domainResult_lands {domain : ExprId} {i j : Nat} (hs : At ts s)
    (hw : Written ts s.arena [.part (.expr domain)] i j) (harrow : ts.tagAt j = .arrow)
    (hpos : s.cursor.position = j + 1) : Lands ts (domainResult r ctx domain s) := by
  unfold domainResult
  cases htype : s.arena.toType domain with
  | mk result arena =>
    cases result with
    | ok _ =>
      have hok : toType domain s = .ok () { s with arena } := by simp only [toType, htype]
      rw [bind_of_ok hok]
      exact (inferInstance : Locates ts (exprSpan domain >>= fun span =>
        arrowResult r ctx (domainParams domain span))).lands _ (hs.store _ _)
    | error b =>
      have herr : ∃ e, toType domain s = .error (.error e) { s with arena } ∧ e.span = b.span ∧
          e.found = Tag.name .lbrace ∧ e.position = s.cursor.current.position ∧ e.code = .blockInType := by
        simp only [toType, htype]
        exact ⟨_, rfl, rfl, rfl, rfl, rfl⟩
      obtain ⟨e, he, hspan, hfound, hposition, hcode⟩ := herr
      obtain ⟨k, l, -, hlj, hbrace, hcovers⟩ := retag_error hw htype
      have hkl := hcovers.lt
      obtain ⟨tok, htok⟩ := TokenList.exists_get? (show k < ts.size by have := hcovers.le; omega)
      have htag : tok.tag = .lbrace := (TokenList.tagAt_of_get? htok).symm.trans hbrace
      rw [bind_of_error he]
      refine SyntaxError.Located.block hcode (t := tok) (u := s.cursor.current)
        ⟨?_, ?_, hposition, htag, k, j, by omega, htok, harrow, hpos ▸ hs.get?_current⟩
      · rw [hspan, hcovers.start tok htok]
      · rw [hfound, TokenKind.displayName, ← htag, Token.tag]

instance : Locates ts (domainArrow r ctx) := by
  refine ⟨fun s hs => ?_⟩
  unfold domainArrow
  refine (Locates.lands s hs).bind fun domain s₁ hdomain h₁ => ?_
  refine (Locates.lands s₁ h₁).bind fun c s₂ harrow h₂ => ?_
  have written := (sigma_reads h.inOrder h.read ctx hs.inside hdomain).written
  have token := accept_takes h₁.inside harrow (by decide)
  cases c with
  | false => exact h₂
  | true =>
    have arrow : Written ts s₂.arena [.token [.arrow]] s₁.cursor.position s₂.cursor.position := token.written
    generalize hi : s₁.cursor.position = i, hj : s₂.cursor.position = j at arrow
    cases arrow with
    | token htag hnil =>
      cases hnil
      exact domainResult_lands ctx h₂ (hi ▸ written.mono token.retained) (List.mem_singleton.1 htag) hj

end Locates

theorem rules_locates (hts : ts.InOrder) (n : Nat) : (rules n).Locates ts := by
  have locates (n : Nat) (h : (rules n).Have fun _ => Grammar.Locates ts) : (rules n).Locates ts :=
    ⟨hts, rules_read hts n, h.expr, h.arrow, h.block⟩
  refine locates n (Rules.have_rules (fun n h _ => ?_) n)
  have := locates n h
  infer_instance

end Grammar

open Grammar

/-! ## Whole sources -/

/-- The errors that a parse of a source reports, in order. -/
def reported : Except SourceFailure ParseOutput → List SyntaxError
  | .ok output => output.errors
  | .error (.syntactic (.error e)) => [e]
  | .error _ => []

section Loop

variable {tokens : TokenList} {m : Nat} {s t : State} {ps : List Pass}

/-- Every error that the loop takes down stands at a token. -/
theorem Passes.located (hts : tokens.InOrder) (hT : tokens.EndsInEof) (hm : tokens.size ≤ m)
    (h : Passes (rules m) tokens.tagIndices s ps t) (hs : s.cursor.tokens = tokens) :
    ∀ e ∈ errorsIn ps, e.Located tokens := by
  have := rules_locates hts m
  induction h with
  | ended => exact fun e he => by cases he
  | @next s s' t p ps hp hps ih =>
    have later := ih (hp.progressed hT hm hs).tokens
    cases hp with
    | read => exact later
    | @resumed e s' hend he =>
      have hat : At tokens (skipped s) := ⟨hT, hs, hs ▸ Cursor.position_lt_of_not_isAtEnd hend⟩
      have first := Locates.lands (p := declLine (rules m)) _ hat
      rw [he] at first
      intro e' he'
      rw [errorsIn_cons_resumed] at he'
      rcases List.mem_cons.1 he' with rfl | he'
      · exact first
      · exact later e' he'

/-- What a parse of tokens reports are errors of its passes. -/
theorem exists_passes_of_reported (names : Interner) (recovery : Recovery) (e : SyntaxError)
    (hT : tokens.EndsInEof)
    (h : (∃ output, (parse tokens names recovery).1 = .ok output ∧ e ∈ output.errors) ∨
      (parse tokens names recovery).1 = .error (.error e)) :
    ∃ ps t, Passes (rules (tokens.size + 1)) tokens.tagIndices
      (takeHashBang (.start tokens names)).2 ps t ∧ e ∈ errorsIn ps := by
  obtain ⟨ps, t, hps, hlen⟩ := exists_passes_start names hT
  refine ⟨ps, t, hps, ?_⟩
  cases recovery with
  | lenient =>
    rw [hps.parse_eq hlen] at h
    obtain ⟨output, ⟨⟩, he⟩ | ⟨⟨⟩⟩ := h
    exact he
  | strict =>
    cases herr : errorsIn ps with
    | nil =>
      rw [hps.parse_strict_eq hlen herr, herr] at h
      obtain ⟨output, ⟨⟩, he⟩ | ⟨⟨⟩⟩ := h
      exact he
    | cons first others =>
      obtain ⟨n, hstrict⟩ := hps.parse_strict_first hlen herr
      rw [hstrict] at h
      obtain ⟨output, ⟨⟩, -⟩ | ⟨⟨⟩⟩ := h
      exact List.mem_cons_self

end Loop

/-- What a parse of a source reports stands among the tokens of the source. -/
theorem located_of_mem_reported {source : String} {names : Interner} {recovery : Recovery} {e : SyntaxError}
    (h : e ∈ reported (parseSource source names recovery).1) :
    ∃ tokens names', lex source names = (.ok tokens, names') ∧ e.Located tokens := by
  unfold parseSource at h
  split at h
  · cases h
  rename_i tokens names' hlex
  refine ⟨tokens, names', hlex, ?_⟩
  have hT := endsInEof_of_lex hlex
  have hps := exists_passes_of_reported names' recovery e hT
  cases hparse : parse tokens names' recovery with
  | mk result names'' =>
    rw [hparse] at h hps
    obtain ⟨ps, t, hps, he⟩ := hps <| by
      cases result with
      | ok output => exact .inl ⟨output, rfl, h⟩
      | error f =>
        cases f with
        | error e' => exact .inr (by rw [List.mem_singleton.1 h])
        | exhausted => cases h
    obtain ⟨-, -, -, htokens, -⟩ := takeHashBang_spec (.start tokens names')
    exact hps.located (lex_counted hlex).1 hT (Nat.le_succ _) htokens e he

/-- **Where errors stand.**  Whatever a parse of a source reports, strict or lenient: an error that is not
about a block in a domain has the span, the name and the position of one token, and its position is the
one that its span is looked up to, so both outputs show the same.  An error about a block in a domain has
the span and the name of a brace, but the position of the token behind the arrow that comes later; its
position is never the one that its span is looked up to, and it stands at no token. -/
theorem parseSource_error_places {source : String} {names : Interner} {recovery : Recovery}
    {e : SyntaxError} (h : e ∈ reported (parseSource source names recovery).1) :
    ∃ tokens names', lex source names = (.ok tokens, names') ∧
      (e.code ≠ .blockInType → (∃ t ∈ tokens.toList, e.Names t) ∧ e.position = e.span.positionIn source ∧
        e.text = s!"{(e.span.positionIn source).text}: {e.message}") ∧
      (e.code = .blockInType → (∃ t u, e.BlamesBlock tokens t u) ∧ e.position ≠ e.span.positionIn source ∧
        ¬∃ t ∈ tokens.toList, e.Names t) := by
  obtain ⟨tokens, names', hlex, located⟩ := located_of_mem_reported h
  refine ⟨tokens, names', hlex, ?_⟩
  obtain ⟨hts, counted⟩ := lex_counted hlex
  have hsize : source.utf8ByteSize < wordLimit := lex_size hlex
  -- a token that an error names stands where the span of the error is looked up to
  have looked : ∀ t ∈ tokens.toList, e.span.start = t.span.start → e.span.positionIn source = t.position := by
    intro t ht hstart
    rw [Span.positionIn, hstart]
    exact (counted t ht).positionIn_eq hsize
  cases located with
  | @token t hcode ht hnames =>
    have hplace := (looked t ht hnames.start).trans hnames.position.symm
    exact ⟨fun _ => ⟨⟨t, ht, hnames⟩, hplace.symm, by rw [SyntaxError.text, hplace]⟩, fun hc => absurd hc hcode⟩
  | @block t u hcode hblock =>
    obtain ⟨i, j, hij, ht, -, hu⟩ := hblock.order
    have htmem := TokenList.mem_of_get? ht
    have hlt : t.span.start < u.span.start := by
      refine Nat.lt_of_lt_of_le (lex_nonempty hlex t htmem ?_) (hts.stop_le_start ht hu (by omega))
      rw [TokenKind.eq_of_tag hblock.brace rfl]
      exact fun hend => by cases hend
    have hne : e.position ≠ e.span.positionIn source := by
      rw [looked t htmem hblock.start, hblock.position]
      exact (counted t htmem).position_ne (counted u (TokenList.mem_of_get? hu)) hlt
    refine ⟨fun hc => absurd hcode hc, fun _ => ⟨⟨t, u, hblock⟩, hne, ?_⟩⟩
    rintro ⟨v, hv, hnames⟩
    exact hne (hnames.position.trans (looked v hv hnames.start).symm)

/-- A block in a domain, and an operand that is missing on the next line. -/
theorem block_and_bracket_error_places :
    ∃ e e', reported (parseSource "f = a {x} -> b\ng = )" .new .lenient).1 = [e, e'] ∧
      (∃ tokens names', lex "f = a {x} -> b\ng = )" .new = (.ok tokens, names') ∧
        (∃ t u, e.BlamesBlock tokens t u) ∧ ¬∃ t ∈ tokens.toList, e.Names t) ∧
      e.position ≠ e.span.positionIn "f = a {x} -> b\ng = )" ∧
      (∃ tokens names', lex "f = a {x} -> b\ng = )" .new = (.ok tokens, names') ∧
        ∃ t ∈ tokens.toList, e'.Names t) ∧
      e'.position = e'.span.positionIn "f = a {x} -> b\ng = )" := by
  have codes : (reported (parseSource "f = a {x} -> b\ng = )" .new .lenient).1).map SyntaxError.code =
      [.blockInType, .expectedExpression] := by
    decide +kernel
  obtain ⟨e, others, hreported, hcode, hothers⟩ := List.map_eq_cons_iff.1 codes
  obtain ⟨e', others, rfl, hcode', hothers⟩ := List.map_eq_cons_iff.1 hothers
  obtain rfl := List.map_eq_nil_iff.1 hothers
  obtain ⟨tokens, names', hlex, -, hblock⟩ :=
    parseSource_error_places (hreported ▸ List.mem_cons_self : e ∈ _)
  obtain ⟨tokens', names'', hlex', htoken, -⟩ :=
    parseSource_error_places (hreported ▸ List.mem_cons_of_mem _ List.mem_cons_self : e' ∈ _)
  obtain ⟨blames, hne, hnone⟩ := hblock hcode
  obtain ⟨names, hplace, -⟩ := htoken (hcode' ▸ nofun)
  exact ⟨e, e', hreported, ⟨tokens, names', hlex, blames, hnone⟩, hne, ⟨tokens', names'', hlex', names⟩, hplace⟩

/-- The error about a block in a domain stands at no token: the brace is at another position. -/
theorem block_in_domain_misplaced :
    ∃ e tokens names', e ∈ reported (parseSource "f = a {x} -> b" .new .strict).1 ∧
      lex "f = a {x} -> b" .new = (.ok tokens, names') ∧ ¬∃ t ∈ tokens.toList, e.Names t := by
  have decided : (reported (parseSource "f = a {x} -> b" .new .strict).1).any (fun e =>
      ((lex "f = a {x} -> b" .new).1.toOption.map fun tokens => tokens.toList.all fun t =>
        !(e.span.start == t.span.start && e.position == t.position)) == some true) = true := by
    decide +kernel
  obtain ⟨e, he, hnone⟩ := List.any_eq_true.1 decided
  cases hlex : lex "f = a {x} -> b" .new with
  | mk result names' =>
    rw [hlex] at hnone
    cases result with
    | error failure => cases hnone
    | ok tokens =>
      refine ⟨e, tokens, names', he, rfl, ?_⟩
      rintro ⟨t, ht, hnames⟩
      have hnone := List.all_eq_true.1 (Option.some.inj (eq_of_beq hnone)) t ht
      simp [hnames.start, hnames.position] at hnone

end SolSyntax
