import SolSyntax.Proofs.Extents
import SolSyntax.Proofs.Making

/-!
# What a step takes

`Takes ts s t row`: from `s` to `t` a step has taken the tokens of a row of signs, and what was stored
before is written as it was.  `Reads ts p row` says of a step that it takes the row of what it gives.
Rows are put together as the steps are.

Principal results: `Takes.trans` — one step after another; `Takes.newExpr`, `Takes.newPattern` — a node of
what has been taken; `Reads.many`, `Reads.bracketed`, `Reads.braced` — rows and lists.
-/

namespace SolSyntax

/-- Where all stays as it is, it is written as it was. -/
theorem Arena.Kept.retains {a b : Arena} (h : a.Kept b) : a.Retains b :=
  ⟨fun id e he => ⟨e, h.expr id e he, rfl, rfl⟩, h.pattern⟩

namespace Grammar

open Parse

variable {ts : TokenList} {s t u : State} {row row' : List Sign} {p : Parse α}

/-- How a step that succeeds began and went on. -/
theorem bind_eq_ok {f : α → Parse β} {y : β} :
    (p >>= f) s = .ok y u ↔ ∃ x t, p s = .ok x t ∧ f x t = .ok y u :=
  ⟨exists_of_bind_ok, fun ⟨_, _, hp, hf⟩ => (bind_of_ok hp).trans hf⟩

/-- A state among some tokens. -/
structure Inside (ts : TokenList) (s : State) : Prop where
  tokens : s.cursor.tokens = ts
  le : s.cursor.position ≤ ts.size

/-- Moving forward does not lead out of the tokens. -/
theorem Inside.forward [hp : Forward p] {x : α} (hs : Inside ts s) (h : p s = .ok x t) :
    Inside ts t := by
  have onward := hp.onward s
  rw [h] at onward
  have onward : s.cursor.Onward t.cursor := onward.cursor
  have hbound := onward.bound
  rw [hs.tokens] at hbound
  exact ⟨onward.tokens.trans hs.tokens, hbound hs.le⟩

/-- A step has taken the tokens of a row. -/
structure Takes (ts : TokenList) (s t : State) (row : List Sign) : Prop where
  before : Inside ts s
  after : Inside ts t
  retained : s.arena.Retains t.arena
  written : Written ts t.arena row s.cursor.position t.cursor.position

namespace Takes

theorem refl (hs : Inside ts s) : Takes ts s s [] := ⟨hs, hs, .refl _, .nil _⟩

/-- One step after another. -/
theorem trans (h : Takes ts s t row) (k : Takes ts t u row') : Takes ts s u (row ++ row') where
  before := h.before
  after := k.after
  retained := h.retained.trans k.retained
  written := (h.written.mono k.retained).append k.written

/-- A step that takes nothing. -/
theorem of_moved (hs : Inside ts s) (m : Moved 0 s t) : Takes ts s t [] := by
  have hpos : t.cursor.position = s.cursor.position := m.position
  refine ⟨hs, ⟨m.tokens.trans hs.tokens, hpos ▸ hs.le⟩, ?_, ?_⟩
  · rw [m.arena]
    exact .refl _
  · rw [hpos]
    exact .nil _

/-- Nothing more is taken, -/
theorem stay (h : Takes ts s t row) (m : Moved 0 t u) : Takes ts s u row :=
  List.append_nil row ▸ h.trans (of_moved h.after m)

/-- or was taken before. -/
theorem start (h : Takes ts t u row) (m : Moved 0 s t) : Takes ts s u row := by
  refine (of_moved ⟨m.tokens.symm.trans h.before.tokens, ?_⟩ m).trans h
  have hpos : t.cursor.position = s.cursor.position := m.position
  exact hpos ▸ h.before.le

/-- A step that makes no node. -/
theorem of_quiet [Forward p] [hq : Quiet p] {x : α} (hs : Inside ts s) (h : p s = .ok x t)
    (hw : Written ts t.arena row s.cursor.position t.cursor.position) : Takes ts s t row := by
  have harena := hq.arena s
  rw [h] at harena
  refine ⟨hs, hs.forward h, ?_, hw⟩
  rw [show t.arena = s.arena from harena]
  exact .refl _

theorem le (h : Takes ts s t row) : s.cursor.position ≤ t.cursor.position := h.written.le

/-- The span of a part, as long as the arena only grows. -/
theorem covers {x : Node} (h : Takes ts s t [.part x]) (hr : t.arena.Retains u.arena) :
    ts.Covers s.cursor.position t.cursor.position (x.span u.arena) := (h.written.mono hr).covers

/-- What has been taken is a piece that is written so. -/
theorem part {x : Node} (h : Takes ts s t row) (hw : t.arena.Writes x row)
    (hc : ts.Covers s.cursor.position t.cursor.position (x.span t.arena)) :
    Takes ts s t [.part x] := ⟨h.before, h.after, h.retained, .part hw h.written hc (.nil _)⟩

/-- A new expression is made of what has been taken. -/
theorem newExpr {kind : ExprKind} {span : Span} {id : ExprId} (h : Takes ts s t row)
    (hnew : Grammar.newExpr kind span t = .ok id u) (hrow : kind.signs = row)
    (hc : ts.Covers s.cursor.position t.cursor.position span) :
    Takes ts s u [.part (.expr id)] := by
  obtain ⟨rfl, rfl⟩ : id = (t.arena.newExpr ⟨kind, span⟩).1 ∧
      u = { t with arena := (t.arena.newExpr ⟨kind, span⟩).2 } := by
    cases hnew
    exact ⟨rfl, rfl⟩
  have hr := (Arena.Kept.newExpr t.arena ⟨kind, span⟩).retains
  have found : (t.arena.newExpr ⟨kind, span⟩).2.expr? (t.arena.newExpr ⟨kind, span⟩).1 =
      some ⟨kind, span⟩ := Arena.expr?_newExpr _ _
  refine ⟨h.before, ⟨h.after.tokens, h.after.le⟩, h.retained.trans hr, ?_⟩
  refine .part (.expr found) (hrow ▸ h.written.mono hr) ?_ (.nil _)
  rwa [Node.span, Arena.exprSpan, found]

theorem newPattern {kind : PatternKind} {span : Span} {id : PatternId} (h : Takes ts s t row)
    (hnew : Grammar.newPattern kind span t = .ok id u) (hrow : kind.signs = row)
    (hc : ts.Covers s.cursor.position t.cursor.position span) :
    Takes ts s u [.part (.pattern id)] := by
  obtain ⟨rfl, rfl⟩ : id = (t.arena.newPattern ⟨kind, span⟩).1 ∧
      u = { t with arena := (t.arena.newPattern ⟨kind, span⟩).2 } := by
    cases hnew
    exact ⟨rfl, rfl⟩
  have hr := (Arena.Kept.newPattern t.arena ⟨kind, span⟩).retains
  have found : (t.arena.newPattern ⟨kind, span⟩).2.pattern? (t.arena.newPattern ⟨kind, span⟩).1 =
      some ⟨kind, span⟩ := Arena.pattern?_newPattern _ _
  refine ⟨h.before, ⟨h.after.tokens, h.after.le⟩, h.retained.trans hr, ?_⟩
  refine .part (.pattern found) (hrow ▸ h.written.mono hr) ?_ (.nil _)
  rwa [Node.span, Arena.patternSpan, found]

end Takes

/-! ## Asking -/

theorem Moved.currentTag (m : Moved 0 s t) : t.cursor.currentTag = s.cursor.currentTag := by
  have hpos : t.cursor.position = s.cursor.position := m.position
  rw [Cursor.currentTag, Cursor.currentTag, Cursor.tagAt, Cursor.tagAt, m.tokens, hpos]

theorem currentTag_eq_tag (c : Cursor) : c.currentTag = c.current.tag := by
  rw [Cursor.currentTag, Cursor.current, Cursor.tagAt, TokenList.tagAt, TokenList.get?]
  cases c.tokens.tokens[c.position]? <;> rfl

theorem check_ok {tag : Tag} {c : Bool} (h : check tag s = .ok c t) :
    Moved 0 s t ∧ c = (s.cursor.currentTag == tag) := by
  obtain ⟨s', hs, m⟩ := check_eq tag s
  rw [hs] at h
  cases h
  exact ⟨m, by rw [Cursor.currentTag_eq]⟩

theorem checkSet_ok {set : TagSet} {c : Bool} (h : checkSet set s = .ok c t) :
    Moved 0 s t ∧ c = set.contains s.cursor.currentTag := by
  obtain ⟨s', hs, m⟩ := checkSet_eq set s
  rw [hs] at h
  cases h
  exact ⟨m, by rw [Cursor.currentTag_eq]⟩

/-- What stands before a stop is asked for without taking it. -/
theorem isBefore_ok {stop : Tag} {c : Bool} (h : isBefore stop s = .ok c t) :
    Moved 0 s t ∧ c = !(s.cursor.currentTag == stop) := by
  unfold isBefore at h
  obtain ⟨b, s₁, h₁, h⟩ := bind_eq_ok.1 h
  cases h
  obtain ⟨m, rfl⟩ := check_ok h₁
  exact ⟨m, rfl⟩

/-- Success does not depend on what errors mention. -/
theorem within_ok {what : Construct} {x : α} (h : Parse.within what p s = .ok x t) :
    p s = .ok x t := by
  unfold Parse.within at h
  cases e : p s with
  | ok y u =>
    rw [e] at h
    exact h
  | error y u =>
    rw [e] at h
    cases h

/-! ## Taking tokens -/

/-- Where a token is that is no end, there is one. -/
theorem Inside.lt_size (hs : Inside ts s) (he : s.cursor.currentTag ≠ .eof) :
    s.cursor.position < ts.size := by
  refine Nat.lt_of_not_le fun hge => he ?_
  rw [Cursor.currentTag, Cursor.tagAt, hs.tokens]
  exact TokenList.tagAt_of_size_le hge

/-- The token at the cursor covers its own place. -/
theorem Inside.covers_current (hs : Inside ts s) (hlt : s.cursor.position < ts.size) :
    ts.Covers s.cursor.position (s.cursor.position + 1) s.cursor.current.span := by
  obtain ⟨tok, htok⟩ := TokenList.exists_get? hlt
  rw [Cursor.current, hs.tokens, htok]
  exact .ofToken htok

/-- A step has taken one token, whose span it knows. -/
structure TakesToken (ts : TokenList) (s t : State) (tags : List Tag) (span : Span) : Prop where
  takes : Takes ts s t [.token tags]
  covers : ts.Covers s.cursor.position t.cursor.position span

theorem TakesToken.start {tags : List Tag} {span : Span} (h : TakesToken ts t u tags span)
    (m : Moved 0 s t) : TakesToken ts s u tags span := by
  have hpos : t.cursor.position = s.cursor.position := m.position
  exact ⟨h.takes.start m, hpos ▸ h.covers⟩

theorem advance_takes {tok : Token} (tags : List Tag) (hs : Inside ts s)
    (h : advance s = .ok tok t) (htag : s.cursor.currentTag ∈ tags)
    (he : s.cursor.currentTag ≠ .eof) : TakesToken ts s t tags tok.span := by
  have hstep : tok = s.cursor.current ∧ t.cursor.position = s.cursor.position + 1 := by
    have hend : ¬ s.cursor.isAtEnd = true := by
      rw [Cursor.isAtEnd, Cursor.isAt]
      exact fun e => he (eq_of_beq e)
    simp only [advance, step, Cursor.advance, if_neg hend] at h
    cases h
    exact ⟨rfl, rfl⟩
  obtain ⟨rfl, hpos⟩ := hstep
  refine ⟨.of_quiet hs h ?_, ?_⟩
  · rw [hpos]
    refine .single ?_
    rwa [← hs.tokens]
  · rw [hpos]
    exact hs.covers_current (hs.lt_size he)

theorem expect_takes {tag : Tag} {tok : Token} (hs : Inside ts s) (h : expect tag s = .ok tok t)
    (he : tag ≠ .eof) : TakesToken ts s t [tag] tok.span := by
  by_cases hat : s.cursor.isAt tag = true
  · have htag : s.cursor.currentTag = tag := eq_of_beq hat
    have hadv : advance s = .ok tok t := by
      simp only [expect, tryStep, Cursor.expect, Cursor.check, if_pos hat] at h
      exact h
    exact advance_takes _ hs hadv (by rw [htag]; exact List.mem_singleton_self _) (htag ▸ he)
  · simp only [expect, tryStep, Cursor.expect, Cursor.check, if_neg hat] at h
    cases h

theorem accept_takes {tag : Tag} {c : Bool} (hs : Inside ts s) (h : accept tag s = .ok c t)
    (he : tag ≠ .eof) : if c then Takes ts s t [.token [tag]] else Takes ts s t [] := by
  unfold accept at h
  obtain ⟨b, s₁, h₁, h⟩ := bind_eq_ok.1 h
  obtain ⟨m, rfl⟩ := check_ok h₁
  split at h
  · rename_i htag
    have htag : s.cursor.currentTag = tag := eq_of_beq htag
    obtain ⟨tok, s₂, h₂, h⟩ := bind_eq_ok.1 h
    cases h
    rw [← m.currentTag] at htag
    have takes := advance_takes [tag] (Takes.of_moved hs m).after h₂
      (by rw [htag]; exact List.mem_singleton_self _) (htag ▸ he)
    exact takes.takes.start m
  · cases h
    exact .of_moved hs m

theorem expectClosing_takes {close : Tag} {opening closing : Span} (hs : Inside ts s)
    (h : expectClosing close opening s = .ok closing t) (he : close ≠ .eof) :
    TakesToken ts s t [close] closing := by
  unfold expectClosing at h
  obtain ⟨b, s₁, h₁, h⟩ := bind_eq_ok.1 h
  obtain ⟨m, rfl⟩ := check_ok h₁
  split at h
  · rename_i htag
    have htag : s.cursor.currentTag = close := eq_of_beq htag
    obtain ⟨tok, s₂, h₂, h⟩ := bind_eq_ok.1 h
    cases h
    rw [← m.currentTag] at htag
    have takes := advance_takes [close] (Takes.of_moved hs m).after h₂
      (by rw [htag]; exact List.mem_singleton_self _) (htag ▸ he)
    exact takes.start m
  · obtain ⟨e, s₂, h₂, h⟩ := bind_eq_ok.1 h
    cases h

/-- An identifier is one token. -/
theorem expectIdent_takes {i : Ident} (hs : Inside ts s) (h : expectIdent s = .ok i t) :
    Takes ts s t [.part (.ident i)] := by
  have taken : ∀ {kind : IdentKind}, i.kind = kind → s.cursor.currentTag ∈ kind.tags →
      i.span = s.cursor.current.span → t.cursor.position = s.cursor.position + 1 →
      Takes ts s t [.part (.ident i)] := by
    rintro kind rfl htag hspan hpos
    have he : s.cursor.currentTag ≠ .eof := by
      rintro e
      rw [e] at htag
      cases hk : i.kind <;> rw [hk] at htag <;> revert htag <;> decide
    have hc := hs.covers_current (hs.lt_size he)
    rw [← hpos, ← hspan] at hc
    refine (Takes.of_quiet hs h ?_).part (.ident i) hc
    rw [hpos]
    refine .single ?_
    rwa [← hs.tokens]
  have hstep : ∀ tag, s.cursor.currentTag = tag → tag ≠ .eof →
      s.cursor.advance.2.position = s.cursor.position + 1 := by
    rintro tag rfl he
    rw [Cursor.advance, if_neg]
    rw [Cursor.isAtEnd, Cursor.isAt]
    exact fun e => he (eq_of_beq e)
  have htag := currentTag_eq_tag s.cursor
  simp only [expectIdent, tryStep, Cursor.expectIdent] at h
  cases hk : s.cursor.current.kind with
  | ident name =>
    rw [Token.tag, hk] at htag
    rw [hk] at h
    cases h
    exact taken rfl (htag ▸ List.mem_singleton_self _) rfl (hstep _ htag (fun e => by cases e))
  | symbol name =>
    rw [Token.tag, hk] at htag
    rw [hk] at h
    cases h
    exact taken rfl (htag ▸ List.mem_cons_self) rfl (hstep _ htag (fun e => by cases e))
  | _ =>
    rw [hk] at h
    cases h

/-! ## Gaps -/

theorem tagAt_of_lt_skipFrom {q : Tag → Bool} {i m : Nat} (him : i ≤ m)
    (hm : m < Cursor.skipFrom ts q i) : q (ts.tagAt m) = true := by
  fun_induction Cursor.skipFrom ts q i with
  | case1 i h ih =>
    rcases Nat.lt_or_eq_of_le him with hlt | rfl
    · exact ih hlt hm
    · exact h.2
  | case2 i h => omega

theorem skipNewlines_takes {x : Unit} (hs : Inside ts s) (h : skipNewlines s = .ok x t) :
    Takes ts s t [.gap breaks] := by
  refine .of_quiet hs h ?_
  cases h
  refine .gap (Cursor.le_skipFrom _ _ _) (fun m hm hlt => ?_) (.nil _)
  have := tagAt_of_lt_skipFrom hm hlt
  rw [hs.tokens] at this
  rw [eq_of_beq this]
  exact List.mem_singleton_self _

theorem eatSeparators_takes {c : Bool} (hs : Inside ts s) (h : eatSeparators s = .ok c t) :
    Takes ts s t [.gap commas] := by
  refine .of_quiet hs h ?_
  have hpos : t.cursor.position =
      Cursor.skipFrom ts (fun t => t == .comma || t == .newline) s.cursor.position := by
    simp only [eatSeparators, step, Cursor.eatSeparators, hs.tokens] at h
    split at h
    · rename_i e
      cases h
      exact e.symm
    · cases h
      rfl
  rw [hpos]
  refine .gap (Cursor.le_skipFrom _ _ _) (fun m hm hlt => ?_) (.nil _)
  have := tagAt_of_lt_skipFrom hm hlt
  rw [Bool.or_eq_true, beq_iff_eq, beq_iff_eq] at this
  rcases this with e | e <;> rw [e] <;> decide

/-- A gap after a gap. -/
theorem Takes.gap_trans {tags : List Tag} (h : Takes ts s t [.gap tags]) (k : Takes ts t u [.gap tags]) :
    Takes ts s u [.gap tags] where
  before := h.before
  after := k.after
  retained := h.retained.trans k.retained
  written := (h.written.mono k.retained).gap_append k.written

theorem breaks_sub_commas : ∀ t ∈ breaks, t ∈ commas := by decide

theorem Takes.widen {tags tags' : List Tag} (h : Takes ts s t [.gap tags])
    (hsub : ∀ t ∈ tags, t ∈ tags') : Takes ts s t [.gap tags'] :=
  ⟨h.before, h.after, h.retained, h.written.widen hsub⟩

/-- Nothing is a gap, -/
theorem Takes.gap_of_nil {tags : List Tag} (h : Takes ts s t []) : Takes ts s t [.gap tags] := by
  refine ⟨h.before, h.after, h.retained, ?_⟩
  have := h.written
  generalize s.cursor.position = i, t.cursor.position = j at this
  cases this
  exact .gap (Nat.le_refl _) (fun m hm hlt => by omega) (.nil _)

/-- and so is one token. -/
theorem Takes.gap_of_token {tag : Tag} {tags : List Tag} (h : Takes ts s t [.token [tag]])
    (hmem : tag ∈ tags) : Takes ts s t [.gap tags] := by
  refine ⟨h.before, h.after, h.retained, ?_⟩
  have := h.written
  generalize s.cursor.position = i, t.cursor.position = j at this
  cases this with
  | token htag hnil =>
    cases hnil
    refine .gap (Nat.le_succ _) (fun m hm hlt => ?_) (.nil _)
    rw [show m = i by omega, List.mem_singleton.1 htag]
    exact hmem

/-! ## Spans -/

theorem spanFrom_ok {start span : Span} (h : spanFrom start s = .ok span t) :
    t = s ∧ span = start.merge s.cursor.previousSpan := by
  cases h
  exact ⟨rfl, rfl⟩

/-- From the start of the first tokens to the end of the last token taken. -/
theorem Takes.covers_spanFrom {start span : Span} {k : Nat} (h : Takes ts s t row) (hts : ts.InOrder)
    (hA : ts.Covers s.cursor.position k start) (hk : k ≤ t.cursor.position)
    (hspan : spanFrom start t = .ok span u) :
    u = t ∧ ts.Covers s.cursor.position t.cursor.position span := by
  obtain ⟨rfl, rfl⟩ := spanFrom_ok hspan
  refine ⟨rfl, ?_⟩
  have hlt := hA.lt
  have hle := h.after.le
  obtain ⟨tok, htok⟩ := TokenList.exists_get? (show u.cursor.position - 1 < ts.size by omega)
  have hlast := TokenList.Covers.ofToken htok
  rw [show u.cursor.position - 1 + 1 = u.cursor.position by omega] at hlast
  have hprev : u.cursor.previousSpan = tok.span := by
    rw [Cursor.previousSpan, if_neg (by omega), h.after.tokens, htok]
    rfl
  rw [hprev]
  exact hA.merge hts hlast (by omega) hk

/-! ## Steps that read rows -/

/-- A step takes the row of what it gives. -/
def Reads (ts : TokenList) (p : Parse α) (row : α → List Sign) : Prop :=
  ∀ ⦃s x t⦄, Inside ts s → p s = .ok x t → Takes ts s t (row x)

/-- What holds before and after every turn of a loop holds behind it. -/
theorem turns_invariant {body : β → Parse (ForInStep β)} {I Q : β → State → Prop}
    (turn : ∀ b s step t, I b s → body b s = .ok step t →
      match step with
      | .done b => Q b t
      | .yield b => I b t) {n : Nat} {b c : β} (hb : I b s) (h : turns body n b s = .ok c t) :
    Q c t := by
  induction n generalizing b s with
  | zero => cases h
  | succ n ih =>
    unfold turns at h
    obtain ⟨step, s₁, h₁, h⟩ := bind_eq_ok.1 h
    have hturn := turn b s step s₁ hb h₁
    cases step with
    | done b =>
      cases h
      exact hturn
    | yield b => exact ih hturn h

theorem repeating_invariant {body : β → Parse (ForInStep β)} {I Q : β → State → Prop}
    (turn : ∀ b s step t, I b s → body b s = .ok step t →
      match step with
      | .done b => Q b t
      | .yield b => I b t) {b c : β} (hb : I b s) (h : repeating body b s = .ok c t) : Q c t :=
  turns_invariant turn hb h

/-- A row ends where the question for one more item says no. -/
theorem many_stops {test : Parse Bool} {P : State → Prop}
    (htest : ∀ ⦃s t⦄, test s = .ok false t → P t) {xs : List α}
    (h : many (optionally test p) s = .ok xs t) : P t := by
  unfold many at h
  obtain ⟨ys, s₁, h₁, h⟩ := bind_eq_ok.1 h
  cases h
  refine repeating_invariant (I := fun _ _ => True) (Q := fun _ u => P u) ?_ trivial h₁
  intro ys u step v _ hturn
  unfold manyTurn optionally at hturn
  simp only [bind_eq_ok] at hturn
  obtain ⟨o, u₁, ⟨c, u₂, hc, ho⟩, hturn⟩ := hturn
  cases c with
  | false =>
    cases ho
    cases hturn
    exact htest hc
  | true =>
    obtain ⟨x, u₃, -, ho⟩ := bind_eq_ok.1 ho
    cases ho
    cases hturn
    trivial

theorem many_isBefore {stop : Tag} {xs : List α}
    (h : many (optionally (isBefore stop) p) s = .ok xs t) : t.cursor.currentTag = stop := by
  refine many_stops (P := fun t => t.cursor.currentTag = stop) (fun s t h => ?_) h
  obtain ⟨m, hc⟩ := isBefore_ok h
  rw [m.currentTag]
  exact eq_of_beq (by simpa using hc.symm)

namespace Reads

variable {rows : α → List Sign}

theorem within (h : Reads ts p rows) (what : Construct) : Reads ts (Parse.within what p) rows :=
  fun _ _ _ hs hp => h hs (within_ok hp)

/-- What is read only if a question says so. -/
theorem optionally {test : Parse Bool} (h : Reads ts p rows)
    (htest : ∀ ⦃s c t⦄, test s = .ok c t → Moved 0 s t) :
    Reads ts (Grammar.optionally test p) fun o => o.toList.flatMap rows := by
  intro s o t hs ho
  unfold Grammar.optionally at ho
  obtain ⟨c, s₁, h₁, ho⟩ := bind_eq_ok.1 ho
  have asked := Takes.of_moved hs (htest h₁)
  split at ho
  · obtain ⟨x, s₂, h₂, ho⟩ := bind_eq_ok.1 ho
    cases ho
    simpa using asked.trans (h asked.after h₂)
  · cases ho
    simpa using asked

/-- Items in a row. -/
theorem many {item : Parse (Option α)} (h : Reads ts item fun o => o.toList.flatMap rows) :
    Reads ts (Grammar.many item) fun xs => xs.flatMap rows := by
  intro s xs t hs hxs
  unfold Grammar.many at hxs
  obtain ⟨ys, s₁, h₁, hxs⟩ := bind_eq_ok.1 hxs
  cases hxs
  refine repeating_invariant (I := fun ys u => Takes ts s u (ys.reverse.flatMap rows))
    (Q := fun ys u => Takes ts s u (ys.reverse.flatMap rows)) ?_ (Takes.refl hs) h₁
  intro ys u step v taken hturn
  unfold manyTurn at hturn
  obtain ⟨o, u₁, hitem, hturn⟩ := bind_eq_ok.1 hturn
  have more := taken.trans (h taken.after hitem)
  cases o with
  | none =>
    cases hturn
    simpa using more
  | some x =>
    cases hturn
    simpa using more

section Lists

variable {close : Tag} {separator : Parse Bool} {gap : List Tag} {node : α → Node}

/-- Items with gaps between them. -/
theorem sequence (h : Reads ts p fun x => [.part (node x)])
    (hsep : Reads ts separator fun _ => [.gap gap]) :
    Reads ts (Grammar.sequence close p separator) fun found =>
      found.1.flatMap fun x => [.part (node x), .gap gap] := by
  intro s found t hs hfound
  unfold Grammar.sequence at hfound
  obtain ⟨found', s₁, h₁, hfound⟩ := bind_eq_ok.1 hfound
  cases hfound
  let taken (found : List α × Bool) (u : State) : Prop :=
    Takes ts s u (found.1.reverse.flatMap fun x => [.part (node x), .gap gap])
  refine repeating_invariant (I := taken) (Q := taken) ?_ (Takes.refl hs) h₁
  intro found u step v htaken hturn
  unfold sequenceTurn at hturn
  obtain ⟨closes, u₁, hcheck, hturn⟩ := bind_eq_ok.1 hturn
  have htaken : Takes ts s u₁ _ := Takes.stay htaken (check_ok hcheck).1
  split at hturn
  · cases hturn
    exact htaken
  · obtain ⟨x, u₂, hx, hturn⟩ := bind_eq_ok.1 hturn
    obtain ⟨more, u₃, hmore, hturn⟩ := bind_eq_ok.1 hturn
    have item := h htaken.after hx
    have grown := htaken.trans (item.trans (hsep item.after hmore))
    split at hturn <;>
    · cases hturn
      simpa [taken] using grown

theorem commaSeparator : Reads ts commaSeparator fun _ => [.gap commas] := by
  intro s c t hs h
  unfold Grammar.commaSeparator at h
  obtain ⟨_, s₁, h₁, h⟩ := bind_eq_ok.1 h
  obtain ⟨comma, s₂, h₂, h⟩ := bind_eq_ok.1 h
  have before := (skipNewlines_takes hs h₁).widen breaks_sub_commas
  have hcomma := accept_takes before.after h₂ (by decide)
  split at h
  · rename_i hc
    rw [if_pos hc] at hcomma
    obtain ⟨_, s₃, h₃, h⟩ := bind_eq_ok.1 h
    cases h
    exact (before.gap_trans (hcomma.gap_of_token (by decide))).gap_trans
      ((skipNewlines_takes hcomma.after h₃).widen breaks_sub_commas)
  · rename_i hc
    rw [if_neg hc] at hcomma
    cases h
    exact before.gap_trans hcomma.gap_of_nil

theorem breakSeparator : Reads ts breakSeparator fun _ => [.gap breaks] := by
  intro s c t hs h
  unfold Grammar.breakSeparator at h
  obtain ⟨newline, s₁, h₁, h⟩ := bind_eq_ok.1 h
  have asked := Takes.of_moved hs (check_ok h₁).1
  split at h
  · obtain ⟨_, s₂, h₂, h⟩ := bind_eq_ok.1 h
    cases h
    exact asked.trans (skipNewlines_takes asked.after h₂)
  · cases h
    exact asked.gap_of_nil

theorem eatSeparators : Reads ts eatSeparators fun _ => [.gap commas] :=
  fun _ _ _ hs h => eatSeparators_takes hs h

/-- A list in brackets. -/
theorem bracketed {opening : Tag} (h : Reads ts p fun x => [.part (node x)]) (hts : ts.InOrder)
    {found : Bracketed α} (hs : Inside ts s) (hopen : s.cursor.currentTag = opening)
    (ho : opening ≠ .eof) (hc : close ≠ .eof) (hfound : Grammar.bracketed close p s = .ok found t) :
    Takes ts s t (listed opening close commas (found.items.map node)) ∧
      ts.Covers s.cursor.position t.cursor.position found.span := by
  unfold Grammar.bracketed at hfound
  obtain ⟨o, s₁, h₁, hfound⟩ := bind_eq_ok.1 hfound
  obtain ⟨_, s₂, h₂, hfound⟩ := bind_eq_ok.1 hfound
  obtain ⟨items, s₃, h₃, hfound⟩ := bind_eq_ok.1 hfound
  obtain ⟨closing, s₄, h₄, hfound⟩ := bind_eq_ok.1 hfound
  cases hfound
  have first := advance_takes [opening] hs h₁ (by simp [hopen]) (hopen ▸ ho)
  have gap := (skipNewlines_takes first.takes.after h₂).widen breaks_sub_commas
  have inner := sequence h commaSeparator gap.after h₃
  have last := expectClosing_takes inner.after h₄ hc
  have hle := gap.le
  have hle' := inner.le
  refine ⟨?_, first.covers.merge hts last.covers ?_ ?_⟩
  · simpa [listed, List.flatMap_map] using first.takes.trans (gap.trans (inner.trans last.takes))
  · exact Nat.le_trans first.takes.le (Nat.le_trans hle hle')
  · exact Nat.le_trans hle (Nat.le_trans hle' last.takes.le)

/-- Items in braces. -/
theorem braced {finish : List α → Parse Unit} (h : Reads ts p fun x => [.part (node x)])
    (hsep : Reads ts separator fun _ => [.gap gap])
    (hfinish : ∀ ⦃xs s x t⦄, finish xs s = .ok x t → Moved 0 s t) (hts : ts.InOrder)
    (hgap : Tag.newline ∈ gap) {found : List α × Span} (hs : Inside ts s)
    (hfound : Grammar.braced p separator finish s = .ok found t) :
    Takes ts s t (listed .lbrace .rbrace gap (found.1.map node)) ∧
      ts.Covers s.cursor.position t.cursor.position found.2 := by
  unfold Grammar.braced at hfound
  obtain ⟨o, s₁, h₁, hfound⟩ := bind_eq_ok.1 hfound
  obtain ⟨_, s₂, h₂, hfound⟩ := bind_eq_ok.1 hfound
  obtain ⟨items, s₃, h₃, hfound⟩ := bind_eq_ok.1 hfound
  obtain ⟨_, s₄, h₄, hfound⟩ := bind_eq_ok.1 hfound
  obtain ⟨closing, s₅, h₅, hfound⟩ := bind_eq_ok.1 hfound
  cases hfound
  have first := expect_takes hs h₁ (by decide)
  have hsub : ∀ t ∈ breaks, t ∈ gap := by simpa [breaks] using hgap
  have pad := (skipNewlines_takes first.takes.after h₂).widen hsub
  have inner := (sequence h hsep pad.after h₃).stay (hfinish h₄)
  have last := expectClosing_takes inner.after h₅ (by decide)
  have hle := pad.le
  have hle' := inner.le
  refine ⟨?_, first.covers.merge hts last.covers ?_ ?_⟩
  · simpa [listed, List.flatMap_map] using first.takes.trans (pad.trans (inner.trans last.takes))
  · exact Nat.le_trans first.takes.le (Nat.le_trans hle hle')
  · exact Nat.le_trans hle (Nat.le_trans hle' last.takes.le)

end Lists

end Reads

end Grammar

end SolSyntax
