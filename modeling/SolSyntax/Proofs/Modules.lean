import SolSyntax.Proofs.Decls

/-!
# What a strict parse reads

A run on its own is two runs side by side with nothing after the tokens in common, so what holds of
two runs says how one declaration is read, and the loop over declarations reads them one after the
other.

Principal results: `declLine_cases` — a declaration is read or there is an error;
`parseDecls_strict` — a strict parse without error reads declarations up to the end.
-/

namespace SolSyntax.Grammar

/-- A run stands where it stands. -/
theorem Aligned.whole (s : State) : Aligned .whole 0 s.cursor.rest s s where
  left := (List.append_nil _).symm
  right := (List.append_nil _).symm
  closes := by rintro ⟨⟩
  dot _ := rfl
  lastDot := by rintro ⟨-, ⟨⟩⟩
  twins := by rintro _ ⟨⟩

/-- A single run ends with a value or an error; no bound is reached. -/
theorem Meet.whole {s : State} {S : α → Prop} {Q : α → α → State → State → Prop} {r : Outcome α}
    (h : Meet .whole s s S Q r r) :
    (∃ a s', r = .ok a s' ∧ Q a a s' s') ∨ ∃ e s', r = .error (.error e) s' := by
  generalize hr : r = r' at h
  cases h with
  | ok hq =>
    cases hr
    exact .inl ⟨_, _, rfl, hq⟩
  | error => exact .inr ⟨_, _, rfl⟩
  | line hw => cases hw
  | ended hw => cases hw.2
  | point hw => cases hw.2

/-- A run that fails has kept what was stored. -/
theorem Meet.kept_of_error {s s' : State} {S : α → Prop} {Q : α → α → State → State → Prop}
    {r : Outcome α} {e : Failure} (h : Meet .whole s s S Q (.error e s') r) : s.arena.Kept s'.arena := by
  cases h with
  | error _ hkept => exact hkept
  | line hw => cases hw
  | ended hw => cases hw.2
  | point hw => cases hw.2

/-- Where the left list ends, the right run succeeds if the left one does. -/
theorem Meet.ok_of_left {w : Window} {s t s' : State} {Q : α → α → State → State → Prop} {a : α} {r : Outcome α}
    (h : Meet w s t never Q (.ok a s') r) (hw : headTag w.left = .eof) (hw' : w.pointed = false) :
    ∃ b t', r = .ok b t' ∧ Q a b s' t' := by
  cases h with
  | ok h => exact ⟨_, _, rfl, h⟩
  | line hl =>
    rw [Window.IsLine, hw] at hl
    cases hl
  | ended _ _ _ h => exact h.2.elim
  | point _ hp =>
    rw [hw'] at hp
    cases hp

/-- So does the left one, if the right one does and has not passed the line break. -/
theorem Meet.ok_of_right {w : Window} {s t t' : State} {S : α → Prop} {Q : α → α → State → State → Prop} {b : α}
    {r : Outcome α} (h : Meet w s t S Q r (.ok b t')) (hw : headTag w.left = .eof) (hw' : w.pointed = false)
    (hrest : w.right.length ≤ t'.cursor.rest.length) :
    ∃ a s', r = .ok a s' ∧ Q a b s' t' := by
  cases h with
  | ok h => exact ⟨_, _, rfl, h⟩
  | line hl =>
    rw [Window.IsLine, hw] at hl
    cases hl
  | ended _ _ hlt => exact absurd (Nat.lt_of_lt_of_le hlt hrest) (Nat.lt_irrefl _)
  | point _ hp =>
    rw [hw'] at hp
    cases hp

/-- From `s` to `s'` a declaration was read, whose tokens are `u`. -/
structure DeclRead (s s' : State) (d : Decl) (u : List Token) (o : Outline TokenKind) : Prop where
  rest : s.cursor.rest = u ++ s'.cursor.rest
  derives : Derives .decl u [o]
  ends : headTag s'.cursor.rest = .newline ∨ headTag s'.cursor.rest = .eof
  grew : Grew s s' [d.view] [o]

/-- A declaration is read, or there is an error. -/
theorem declLine_cases {n : Nat} {s : State} (hn : s.cursor.rest.length ≤ n) :
    (∃ d s' u o, declLine (rules n) s = .ok d s' ∧ DeclRead s s' d u o) ∨
      ∃ e s', declLine (rules n) s = .error (.error e) s' := by
  have agree : (rules n).Agree .whole s.cursor.rest.length (rules n) := rules_agree hn hn
  obtain ⟨d, s', hr, -, u, v, o, hv, hD, hend, b⟩ | h :=
    (declLine_agrees agree (Aligned.whole s) (Nat.lt_succ_self _)).whole
  · have hrest : s'.cursor.rest = v := b.aligned.left.trans (List.append_nil v)
    exact .inl ⟨d, s', u, o, hr, hrest ▸ hv, hD, hrest ▸ hend, b.left⟩
  · exact .inr h

theorem DeclRead.of_ok {n : Nat} {s s' : State} {d : Decl} (hn : s.cursor.rest.length ≤ n)
    (hd : declLine (rules n) s = .ok d s') : ∃ u o, DeclRead s s' d u o := by
  obtain ⟨d', s'', u, o, hd', read⟩ | ⟨e, s'', he⟩ := declLine_cases hn
  · rw [hd] at hd'
    cases hd'
    exact ⟨u, o, read⟩
  · rw [hd] at he
    cases he

/-- What was stored before a declaration stays, whether it is read or not. -/
theorem declLine_kept {n : Nat} {s : State} (hn : s.cursor.rest.length ≤ n) :
    s.arena.Kept (final (declLine (rules n) s)).arena := by
  have agree : (rules n).Agree .whole s.cursor.rest.length (rules n) := rules_agree hn hn
  have meets := declLine_agrees agree (Aligned.whole s) (Nat.lt_succ_self _)
  cases hr : declLine (rules n) s with
  | ok d s' =>
    obtain ⟨u, o, read⟩ := DeclRead.of_ok hn hr
    exact read.grew.arena
  | error e s' =>
    rw [hr] at meets
    exact meets.kept_of_error

/-! ## The loop -/

/-- The state past the line breaks. -/
def skipped (s : State) : State := { s with cursor := s.cursor.skipNewlines }

theorem skipped_tokens (s : State) : (skipped s).cursor.tokens = s.cursor.tokens := rfl

theorem skipped_moved (s : State) :
    Moved (s.cursor.rest.takeWhile (·.tag == .newline)).length s (skipped s) :=
  ⟨rfl, Cursor.skipFrom_eq _ _ _, rfl, rfl⟩

theorem rest_skipped (s : State) : (skipped s).cursor.rest = skipBreaks s.cursor.rest :=
  rest_of_moved_takeWhile rfl (skipped_moved s)

theorem skipped_rest (s : State) :
    ∃ b, AllBreaks b ∧ s.cursor.rest = b ++ (skipped s).cursor.rest ∧
      headTag (skipped s).cursor.rest ≠ .newline := by
  rw [rest_skipped]
  exact ⟨s.cursor.rest.takeWhile (·.tag == .newline), allBreaks_takeWhile _,
    List.takeWhile_append_dropWhile.symm, headTag_skipBreaks _⟩

section Loop

variable {recovery : Recovery} {r : Rules} {tags : Array Nat} {hashBang : Option Name} {n : Nat}
  {decls : List Decl} {errors : List SyntaxError} {s s' : State}

/-- At the end the loop is left. -/
theorem parseDecls_end (h : (skipped s).cursor.isAtEnd = true) :
    parseDecls recovery r tags hashBang (n + 1) decls errors s =
      .finish hashBang decls errors (skipped s) false := by
  rw [parseDecls]
  exact if_pos h

/-- A declaration is kept. -/
theorem parseDecls_ok {d : Decl} (h : (skipped s).cursor.isAtEnd = false)
    (hd : declLine r (skipped s) = .ok d s') :
    parseDecls recovery r tags hashBang (n + 1) decls errors s =
      parseDecls recovery r tags hashBang n (d :: decls) errors s' := by
  rw [parseDecls]
  refine (if_neg (ne_true_of_eq_false h)).trans ?_
  rw [show declLine r { s with cursor := s.cursor.skipNewlines } = .ok d s' from hd]

/-- The first error ends a strict parse. -/
theorem parseDecls_strict_error {e : SyntaxError} (h : (skipped s).cursor.isAtEnd = false)
    (hd : declLine r (skipped s) = .error (.error e) s') :
    parseDecls .strict r tags hashBang (n + 1) decls errors s =
      .finish hashBang decls (e :: errors) s' false := by
  rw [parseDecls]
  refine (if_neg (ne_true_of_eq_false h)).trans ?_
  rw [show declLine r { s with cursor := s.cursor.skipNewlines } = .error (.error e) s' from hd]

/-- At its bound the loop is left. -/
theorem parseDecls_exhausted (h : (skipped s).cursor.isAtEnd = false)
    (hd : declLine r (skipped s) = .error .exhausted s') :
    parseDecls recovery r tags hashBang (n + 1) decls errors s =
      .finish hashBang decls errors s' true := by
  rw [parseDecls]
  refine (if_neg (ne_true_of_eq_false h)).trans ?_
  rw [show declLine r { s with cursor := s.cursor.skipNewlines } = .error .exhausted s' from hd]

/-- In a strict parse without error every declaration is read. -/
theorem exists_of_parseDecls_strict {run : ModuleRun}
    (hrun : parseDecls .strict r tags hashBang (n + 1) decls [] s = run)
    (hex : run.exhausted = false) (herr : run.errors = []) (h : (skipped s).cursor.isAtEnd = false) :
    ∃ d s', declLine r (skipped s) = .ok d s' := by
  cases hd : declLine r (skipped s) with
  | ok d s' => exact ⟨d, s', rfl⟩
  | error e s' =>
    cases e with
    | error e =>
      rw [parseDecls_strict_error h hd] at hrun
      subst hrun
      simp [ModuleRun.finish] at herr
    | exhausted =>
      rw [parseDecls_exhausted h hd] at hrun
      subst hrun
      cases hex

/-- A lenient parse takes down an error and goes on. -/
theorem parseDecls_lenient_error {e : SyntaxError} (h : (skipped s).cursor.isAtEnd = false)
    (hd : declLine r (skipped s) = .error (.error e) s') :
    parseDecls .lenient r tags hashBang (n + 1) decls errors s =
      parseDecls .lenient r tags hashBang n decls (e :: errors)
        (recover tags (skipped s).cursor.position s') := by
  rw [parseDecls]
  refine (if_neg (ne_true_of_eq_false h)).trans ?_
  rw [show declLine r { s with cursor := s.cursor.skipNewlines } = .error (.error e) s' from hd]
  rfl

end Loop

/-- A strict parse without error reads declarations up to the end. -/
theorem parseDecls_strict {m : Nat} {tags : Array Nat} {hashBang : Option Name} {n : Nat}
    {decls : List Decl} {s : State} (hm : s.cursor.rest.length ≤ m) {run : ModuleRun}
    (hrun : parseDecls .strict (rules m) tags hashBang n decls [] s = run)
    (hex : run.exhausted = false) (herr : run.errors = []) :
    ∃ u ds os, s.cursor.rest = u ++ run.state.cursor.rest ∧
      headTag run.state.cursor.rest = .eof ∧ Derives .decls u os ∧
      run.module = ⟨hashBang, decls.reverse ++ ds⟩ ∧ Grew s run.state (ds.map Decl.view) os := by
  induction n generalizing decls s with
  | zero =>
    subst hrun
    cases hex
  | succ n ih =>
    obtain ⟨b, hb, hrest, hhead⟩ := skipped_rest s
    have start : Grew s (skipped s) [] [] := (Grew.refl s).move rfl rfl
    have hle := congrArg List.length hrest
    rw [List.length_append] at hle
    cases hend : (skipped s).cursor.isAtEnd with
    | true =>
      rw [parseDecls_end hend] at hrun
      subst hrun
      rw [isAtEnd_eq] at hend
      exact ⟨b, [], [], hrest, eq_of_beq hend, .declsNil hb, by simp [ModuleRun.finish], start⟩
    | false =>
      obtain ⟨d, s', u, o, hd, read⟩ | ⟨e, s', he⟩ := declLine_cases (s := skipped s) (n := m) (by omega)
      · rw [parseDecls_ok hend hd] at hrun
        have hlt := congrArg List.length read.rest
        rw [List.length_append] at hlt
        obtain ⟨v, ds, os, hv, hstop, hD, hmod, grown⟩ := ih (by omega) hrun
        refine ⟨b ++ u ++ v, d :: ds, o :: os, ?_, hstop, ?_, ?_, start.trans (read.grew.trans grown)⟩
        · rw [hrest, read.rest, hv, List.append_assoc, List.append_assoc]
        · refine .declsCons hb ?_ read.derives hD
          have hends := read.ends
          rw [hv] at hends
          exact hD.headTag_decls hends
        · rw [hmod, List.reverse_cons, List.append_assoc]
          rfl
      · rw [parseDecls_strict_error hend he] at hrun
        subst hrun
        simp [ModuleRun.finish] at herr

/-- Taking a `#!` line. -/
theorem takeHashBang_cons {s : State} {tok : Token} {r : List Token} {text : Name}
    (h : s.cursor.rest = tok :: r) (hk : tok.kind = .hashBang text) :
    ∃ s', takeHashBang s = (some text, s') ∧ Moved 1 s s' := by
  have htag : tok.tag = .hashBang := by
    rw [Token.tag, hk]
    rfl
  obtain ⟨s', hs, ms⟩ := advance_eq h (by rw [htag]; decide)
  have hcurrent : s.cursor.current.kind = .hashBang text := by
    rw [Cursor.current_eq, h]
    exact hk
  have hs' : ({ s with cursor := s.cursor.advance.2 } : State) = s' := congrArg final hs
  refine ⟨s', ?_, ms⟩
  unfold takeHashBang
  rw [hcurrent, hs']

theorem exists_of_headTag_hashBang {u : List Token} (h : headTag u = .hashBang) :
    ∃ tok r text, u = tok :: r ∧ tok.kind = .hashBang text := by
  cases u with
  | nil => cases h
  | cons tok r =>
    rw [headTag_cons, Token.tag] at h
    cases hk : tok.kind with
    | hashBang text => exact ⟨tok, r, text, rfl, hk⟩
    | _ =>
      rw [hk] at h
      cases h

theorem takeHashBang_eq {s : State} (h : headTag s.cursor.rest ≠ .hashBang) :
    takeHashBang s = (none, s) := by
  unfold takeHashBang
  split
  · rename_i text hk
    rw [Cursor.current_eq] at hk
    cases hrest : s.cursor.rest with
    | nil =>
      rw [hrest] at hk
      cases hk
    | cons tok r =>
      rw [hrest] at hk h
      exact absurd (by rw [headTag_cons, Token.tag, show tok.kind = _ from hk]; rfl) h
  · rfl

theorem takeHashBang_isSome {s : State} (h : headTag s.cursor.rest = .hashBang) :
    (takeHashBang s).1.isSome = true := by
  obtain ⟨tok, r, text, hrest, hk⟩ := exists_of_headTag_hashBang h
  obtain ⟨s', hs, -⟩ := takeHashBang_cons hrest hk
  rw [hs]
  rfl

theorem takeHashBang_spec (s : State) :
    ∃ b, s.cursor.rest = b ++ (takeHashBang s).2.cursor.rest ∧ (∀ t ∈ b, t.tag = .hashBang) ∧
      (takeHashBang s).2.cursor.tokens = s.cursor.tokens ∧ Grew s (takeHashBang s).2 [] [] := by
  by_cases h : headTag s.cursor.rest = .hashBang
  · obtain ⟨tok, r, text, hrest, hk⟩ := exists_of_headTag_hashBang h
    obtain ⟨s', hs, ms⟩ := takeHashBang_cons hrest hk
    rw [hs]
    rw [hrest, headTag_cons] at h
    refine ⟨[tok], ?_, by simp [h], ms.tokens, (Grew.refl s).move ms.arena ms.names⟩
    rw [ms.rest, hrest]
    rfl
  · rw [takeHashBang_eq h]
    exact ⟨[], rfl, by simp, rfl, .refl s⟩

/-- Tokens end at their first `eof`. -/
theorem eq_of_append_eof {a u r : List Token} {e : Token} (h : a ++ [e] = u ++ r)
    (ha : ∀ t ∈ a, t.tag ≠ .eof) (hu : ∀ t ∈ u, t.tag ≠ .eof) (he : e.tag = .eof)
    (hr : headTag r = .eof) : u = a := by
  induction a generalizing u with
  | nil =>
    cases u with
    | nil => rfl
    | cons t u =>
      rw [List.nil_append, List.cons_append, List.cons.injEq] at h
      exact absurd (h.1 ▸ he) (hu t List.mem_cons_self)
  | cons t a ih =>
    cases u with
    | nil =>
      rw [List.nil_append] at h
      rw [← h] at hr
      exact absurd hr (ha t List.mem_cons_self)
    | cons t' u =>
      rw [List.cons_append, List.cons_append, List.cons.injEq] at h
      rw [h.1, ih h.2 (fun t ht => ha t (List.mem_cons_of_mem _ ht))
        fun t ht => hu t (List.mem_cons_of_mem _ ht)]

/-- The run behind a strict parse that succeeds. -/
theorem parse_strict_run {tokens : TokenList} {names names' : Interner} {output : ParseOutput}
    (h : parse tokens names .strict = (.ok output, names')) :
    ∃ run, parseModule .strict (.start tokens names) = run ∧ run.exhausted = false ∧ run.errors = [] ∧
      output = ⟨run.module, run.state.arena, []⟩ ∧ names' = run.state.names := by
  obtain ⟨hex, herr, rfl⟩ := (parse_ok_iff rfl).1 (congrArg Prod.fst h)
  exact ⟨_, rfl, hex, herr rfl, by rw [herr rfl], (congrArg Prod.snd h).symm.trans (parse_names ..)⟩

theorem length_rest_le_bound (s : State) : s.cursor.rest.length ≤ s.bound :=
  Nat.le_of_lt (Aligned.whole s).length_lt_bound.1

/-- A strict parse that succeeds has read declarations up to the end, perhaps after a `#!` line. -/
theorem parse_strict {tokens : TokenList} {names names' : Interner} {output : ParseOutput}
    (h : parse tokens names .strict = (.ok output, names')) :
    ∃ b u r os, tokens.toList = b ++ u ++ r ∧ (∀ t ∈ b, t.tag = .hashBang) ∧ headTag r = .eof ∧
      Derives .decls u os ∧ names.Kept names' ∧
      Stores names' output.arena ⟨0, 0⟩ (output.module.decls.map Decl.view) os
        output.arena.mark := by
  obtain ⟨b, hrest, hb, htokens, taken⟩ := takeHashBang_spec (.start tokens names)
  obtain ⟨run, hrun, hex, herr, rfl, rfl⟩ := parse_strict_run h
  obtain ⟨u, ds, os, hu, hend, hD, hmod, grown⟩ :=
    parseDecls_strict (s := (takeHashBang (.start tokens names)).2) (length_rest_le_bound _) hrun hex herr
  have whole := taken.trans grown
  refine ⟨b, u, run.state.cursor.rest, os, ?_, hb, hend, hD, whole.names, ?_⟩
  · rw [List.append_assoc, ← hu, ← hrest]
    rfl
  · simp only [hmod, List.reverse_nil, List.nil_append]
    exact whole.stores

end SolSyntax.Grammar
