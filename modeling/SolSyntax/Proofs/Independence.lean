import SolSyntax.Proofs.SideBySide

/-!
# One module after another

A strict parse reads each part of a module as it reads that part alone.  Nothing that looks ahead in a
declaration looks past the line break behind it, and a part that is read later stores its nodes behind
those of the parts before, with its references moved on by as much.

Principal results: `parse_withNames` — a parse does the same if it finds the names there that it would
have added; `parse_strict_append` — two modules in one.
-/

namespace SolSyntax

open Grammar

/-! ## Names that are there already -/

section Names

variable {recovery : Recovery} {tags : Array Nat} {hashBang : Option Name}

/-- The same run, with other names at its end. -/
def ModuleRun.withNames (run : ModuleRun) (names : Interner) : ModuleRun :=
  { run with state := run.state.withNames names }

/-- The loop never forgets a name, and does the same if all the names are there already in which it
ends. -/
theorem parseDecls_forward (r : Rules) [r.Forward] (n : Nat) (decls : List Decl)
    (errors : List SyntaxError) (s : State) :
    s.names.Kept (parseDecls recovery r tags hashBang n decls errors s).state.names ∧
      ∀ names, (parseDecls recovery r tags hashBang n decls errors s).state.names.Kept names →
        parseDecls recovery r tags hashBang n decls errors (s.withNames names) =
          (parseDecls recovery r tags hashBang n decls errors s).withNames names := by
  induction n generalizing decls errors s with
  | zero => exact ⟨.refl _, fun _ _ => rfl⟩
  | succ n ih =>
    have onward := Forward.onward (p := declLine r) (skipped s)
    have stable := Forward.stable (p := declLine r) (skipped s)
    cases hend : (skipped s).cursor.isAtEnd with
    | true =>
      rw [parseDecls_end hend]
      exact ⟨.refl _, fun names _ => parseDecls_end (s := s.withNames names) hend⟩
    | false =>
      cases hd : declLine r (skipped s) with
      | ok d s' =>
        rw [hd] at onward stable
        obtain ⟨hkept, hsame⟩ := ih (d :: decls) errors s'
        rw [parseDecls_ok hend hd]
        refine ⟨onward.names.trans hkept, fun names hn => ?_⟩
        rw [parseDecls_ok (s := s.withNames names) hend (stable names (hkept.trans hn))]
        exact hsame names hn
      | error e s' =>
        rw [hd] at onward stable
        cases e with
        | exhausted =>
          rw [parseDecls_exhausted hend hd]
          exact ⟨onward.names, fun names hn =>
            parseDecls_exhausted (s := s.withNames names) hend (stable names hn)⟩
        | error e =>
          cases recovery with
          | strict =>
            rw [parseDecls_strict_error hend hd]
            exact ⟨onward.names, fun names hn =>
              parseDecls_strict_error (s := s.withNames names) hend (stable names hn)⟩
          | lenient =>
            obtain ⟨hkept, hsame⟩ :=
              ih decls (e :: errors) (recover tags (skipped s).cursor.position s')
            rw [parseDecls_lenient_error hend hd]
            refine ⟨onward.names.trans hkept, fun names hn => ?_⟩
            rw [parseDecls_lenient_error (s := s.withNames names) hend (stable names (hkept.trans hn))]
            exact hsame names hn

theorem takeHashBang_withNames (s : State) (names : Interner) :
    takeHashBang (s.withNames names) =
      ((takeHashBang s).1, (takeHashBang s).2.withNames names) := by
  unfold takeHashBang
  rw [show (s.withNames names).cursor = s.cursor from rfl]
  split <;> rfl

/-- What a parse gives depends on the run behind it alone. -/
theorem parse_of_run {tokens : TokenList} {names more : Interner}
    (h : parseModule recovery (.start tokens more) =
      (parseModule recovery (.start tokens names)).withNames more) :
    parse tokens more recovery = ((parse tokens names recovery).1, more) := by
  unfold parse
  rw [h]
  generalize parseModule recovery (.start tokens names) = run
  obtain ⟨module, errors, s, exhausted⟩ := run
  cases exhausted with
  | true => rfl
  | false =>
    cases recovery with
    | lenient => rfl
    | strict => cases errors <;> rfl

/-- A parse does the same, and adds no name, if all the names are there already in which it ends. -/
theorem parse_withNames {tokens : TokenList} {names names' more : Interner}
    {result : Except Failure ParseOutput} (h : parse tokens names recovery = (result, names'))
    (hmore : names'.Kept more) : parse tokens more recovery = (result, more) := by
  have hnames : (parse tokens names recovery).2 = _ := parse_names tokens names
  rw [h, parseModule_eq] at hnames
  subst hnames
  have htake := takeHashBang_withNames (.start tokens names) more
  rw [show (State.start tokens names).withNames more = .start tokens more from rfl] at htake
  have hrun : parseModule recovery (.start tokens more) =
      (parseModule recovery (.start tokens names)).withNames more := by
    rw [parseModule_eq, parseModule_eq, htake]
    exact (parseDecls_forward _ _ _ _ _).2 more hmore
  rw [parse_of_run hrun, h]

end Names

/-! ## Tokens among other tokens -/

section Loop

variable {w : Window} {base : Arena} {m m' n : Nat} {tags : Array Nat} {hashBang : Option Name}
  {decls ds : List Decl} {s s' t : State} {v : List Token} {run : ModuleRun}

/-- The loop does not depend on line breaks before it. -/
theorem parseDecls_of_skipped_eq {recovery : Recovery} {r : Rules} {errors : List SyntaxError}
    (h : skipped s = skipped s') :
    parseDecls recovery r tags hashBang (n + 1) decls errors s =
      parseDecls recovery r tags hashBang (n + 1) decls errors s' := by
  have hcursor : s.cursor.skipNewlines = s'.cursor.skipNewlines := congrArg State.cursor h
  have hstate : ({ s with cursor := s'.cursor.skipNewlines } : State) =
      { s' with cursor := s'.cursor.skipNewlines } := by
    rw [← hcursor]
    exact h.trans (by rw [skipped, hcursor])
  rw [parseDecls, parseDecls, hcursor, hstate]

/-- The part of a run that reads tokens, among other tokens and behind other nodes: from `t` it comes to
`t'`, before `v`, and has read what `run` has read after `decls`. -/
structure Continues (w : Window) (base : Arena) (r : Rules) (run : ModuleRun) (decls ds : List Decl)
    (t t' : State) (v : List Token) (k : Nat) : Prop where
  decls : run.module.decls = decls.reverse ++ ds
  tokens : t'.cursor.tokens = t.cursor.tokens
  rest : t'.cursor.rest = v ++ w.right
  names : t'.names = run.state.names
  arena : t'.arena = run.state.arena.behind base
  loop : ∀ tags hashBang n decls, parseDecls .strict r tags hashBang (n + k) decls [] t =
    parseDecls .strict r tags hashBang n ((relocate base.mark ds).reverse ++ decls) [] t'

/-- A strict parse of more tokens goes on behind those that parse strictly on their own. -/
theorem exists_continues (hw : headTag w.left = .eof) (hw' : w.pointed = false)
    (hbase : w.base = some base) (hex : run.exhausted = false) (herr : run.errors = [])
    (hrun : parseDecls .strict (rules m) tags hashBang n decls [] s = run) (al : Aligned w 0 v s t)
    (hm : v.length ≤ m) (hm' : v.length ≤ m') :
    ∃ u v' ds t' k, v = u ++ v' ∧ k ≤ u.length ∧
      (skipBreaks v' = [] ∨ headTag (skipBreaks v') = .eof) ∧
      Continues w base (rules m') run decls ds t t' v' k := by
  induction n generalizing decls s t v with
  | zero =>
    subst hrun
    cases hex
  | succ n ih =>
    cases hend : (skipped s).cursor.isAtEnd with
    | true =>
      rw [parseDecls_end hend] at hrun
      subst hrun
      obtain ⟨hnames, harena, -, -⟩ := al.twins base hbase
      exact ⟨[], v, [], t, 0, rfl, Nat.le_refl _, al.skipBreaks_of_isAtEnd hend,
        ⟨by simp [ModuleRun.finish], rfl, al.right, hnames, harena, fun _ _ _ _ => rfl⟩⟩
    | false =>
      have hv := al.skipBreaks_ne_nil hw hend
      have hle : (skipBreaks v).length ≤ v.length := (List.dropWhile_suffix _).length_le
      have hsplit : v = v.takeWhile (·.tag == .newline) ++ skipBreaks v :=
        List.takeWhile_append_dropWhile.symm
      obtain ⟨d, s', hd⟩ := exists_of_parseDecls_strict hrun hex herr hend
      rw [parseDecls_ok hend hd] at hrun
      obtain ⟨d', t₁, u₁, v₁, o, hd', hsame, hv₁, hD, -, b⟩ :=
        (al.skipped hv).declLine_ok hw hw' (by omega) (show _ ≤ m' by omega) hd
      have hend' := ((al.skipped hv).isAtEnd_eq hv).trans hend
      have hlen := congrArg List.length hv₁
      rw [List.length_append] at hlen
      have hne : 0 < u₁.length := List.length_pos_iff.2 (hD.ne_nil rfl)
      obtain ⟨u, v', ds, t', k, rfl, hk, hstop, c⟩ := ih hrun b.aligned (by omega) (by omega)
      have onward := Forward.onward (p := declLine (rules m')) (skipped t)
      rw [hd'] at onward
      refine ⟨v.takeWhile (·.tag == .newline) ++ u₁ ++ u, v', d :: ds, t', k + 1, ?_, ?_, hstop, ?_⟩
      · rw [hv₁] at hsplit
        rw [List.append_assoc, List.append_assoc]
        exact hsplit
      · rw [List.length_append, List.length_append]
        omega
      · refine ⟨?_, c.tokens.trans onward.cursor.tokens, c.rest, c.names, c.arena, ?_⟩
        · rw [c.decls, List.reverse_cons, List.append_assoc]
          rfl
        · intro tags hashBang n decls
          rw [← Nat.add_assoc, parseDecls_ok hend' hd', c.loop, hsame base hbase,
            show relocate base.mark (d :: ds) = relocate base.mark d :: relocate base.mark ds from rfl,
            List.reverse_cons, List.append_assoc]
          rfl

end Loop

/-! ## Two modules -/

/-- One module after another: the declarations and the nodes of the second come behind those of the first,
and the references in the second are moved on by as many. -/
def ParseOutput.followedBy (first second : ParseOutput) : ParseOutput where
  module := ⟨first.module.hashBang,
    first.module.decls ++ relocate first.arena.mark second.module.decls⟩
  arena := second.arena.behind first.arena
  errors := first.errors ++ second.errors

/-- A strict parse of some tokens, after `k` passes, comes to `t` and has read a whole module. -/
structure HasRead (tokens : TokenList) (names : Interner) (run : ModuleRun) (t : State) (k : Nat) : Prop where
  hashBang : (takeHashBang (.start tokens names)).1 = run.module.hashBang
  loop : ∀ n, parseDecls .strict (rules (tokens.size + 1)) tokens.tagIndices run.module.hashBang (n + 1 + k)
      [] [] (takeHashBang (.start tokens names)).2 =
    parseDecls .strict (rules (tokens.size + 1)) tokens.tagIndices run.module.hashBang (n + 1)
      run.module.decls.reverse [] t
  tokens : t.cursor.tokens = tokens
  names : t.names = run.state.names
  arena : t.arena = run.state.arena

section Append

variable {a b r : List Token} {n e₀ e : Token} {names : Interner} {run : ModuleRun} {tokens : TokenList}

/-- What parses strictly on its own is read in front of a line break. -/
theorem exists_hasRead (ha : ∀ t ∈ a, t.tag ≠ .eof) (he₀ : e₀.tag = .eof) (hn : n.tag = .newline)
    (hr : headTag (skipBreaks r) ≠ .kwElse)
    (hrun : parseModule .strict (.start (.ofTokens (a ++ [e₀])) names) = run)
    (hex : run.exhausted = false) (herr : run.errors = []) (htokens : tokens.toList = a ++ n :: r) :
    ∃ t k, k ≤ a.length ∧ t.cursor.rest = r ∧ HasRead tokens names run t k := by
  have hs : (State.start (.ofTokens (a ++ [e₀])) names).cursor.rest = a ++ [e₀] := rfl
  have ht : (State.start tokens names).cursor.rest = a ++ n :: r := htokens
  obtain ⟨x, v, s', t', text, rfl, hs', ht', ms, mt⟩ :=
    takeHashBang_beside (by rw [headTag_cons, he₀]; decide) (by rw [headTag_cons, hn]; decide) hs ht
  rw [parseModule_eq, hs'] at hrun
  have hleft : s'.cursor.rest = v ++ [e₀] := by
    rw [ms.rest, hs, List.append_assoc, List.drop_left]
  have hright : t'.cursor.rest = v ++ n :: r := by
    rw [mt.rest, ht, List.append_assoc, List.drop_left]
  have hv : ∀ t ∈ v, t.tag ≠ .eof := fun t h => ha t (List.mem_append_right x h)
  have hbound : s'.cursor.rest.length ≤ (TokenList.ofTokens (x ++ v ++ [e₀])).size + 1 := by
    have hle := length_rest_le_bound s'
    rwa [State.bound, ms.tokens] at hle
  have hbound' : t'.cursor.rest.length ≤ tokens.size + 1 := by
    have hle := length_rest_le_bound t'
    rwa [State.bound, mt.tokens] at hle
  have hlen := congrArg List.length hleft
  have hlen' := congrArg List.length hright
  rw [List.length_append] at hlen hlen'
  obtain ⟨u, ds₀, os, hu, hend, hD, hmod, -⟩ := parseDecls_strict hbound hrun hex herr
  obtain rfl := eq_of_append_eof (hleft ▸ hu) hv hD.nested.ne_eof he₀ hend
  have hr' : headTag (skipBreaks (n :: r)) ≠ .kwElse := by rwa [skipBreaks_cons hn]
  have al : Aligned (.cut he₀ hn hr' u.length false) 0 u s' t' := by
    refine ⟨hleft, hright, fun _ _ => hD.nested.closes_zero, fun hdot => ?_, fun _ _ => hD.endsWell, ?_⟩
    · have hhead := hD.headTag_decls_ne_dot (v := []) (by decide)
      rw [List.append_nil] at hhead
      exact absurd hdot hhead
    · rintro _ ⟨⟩
      refine ⟨mt.names.trans ms.names.symm, ?_, Nat.le_refl _, fun hlt => absurd hlt (Nat.lt_irrefl _)⟩
      rw [ms.arena, mt.arena, Arena.behind_empty]
      rfl
  obtain ⟨y, v', ds, t₁, k, hsplit, hk, hstop, c⟩ :=
    exists_continues (w := .cut he₀ hn hr' u.length false) he₀ rfl rfl hex herr hrun al (by omega)
      (show _ ≤ tokens.size + 1 by omega)
  have hbreaks : AllBreaks v' := allBreaks_of_stop hstop fun t ht => by
    rw [hsplit] at hv
    exact hv t (List.mem_append_right y ht)
  have hbreaks' : AllBreaks (v' ++ [n]) := by
    intro t ht
    rcases List.mem_append.1 ht with ht | ht
    · exact hbreaks t ht
    · rw [List.mem_singleton.1 ht, hn]
  obtain ⟨t₂, moved, hrest, hskip⟩ := exists_past_breaks (r := r) hbreaks' (by rw [c.rest]; simp [Window.cut])
  refine ⟨t₂, k, ?_, hrest, ?_, fun i => ?_, ?_, moved.names.trans c.names, ?_⟩
  · rw [hsplit]
    simp only [List.length_append]
    omega
  · rw [ht', hmod]
  · have hdecls : relocate Arena.empty.mark ds = run.module.decls := by
      rw [c.decls]
      exact relocate_zero ds
    rw [ht', c.loop, hdecls, List.append_nil]
    exact parseDecls_of_skipped_eq hskip.symm
  · rw [moved.tokens, c.tokens, mt.tokens]
    rfl
  · rw [moved.arena, c.arena, Arena.behind_empty]

/-- The loop behind a strict parse without a `#!` line, and what the tokens are. -/
theorem parseDecls_of_noHashBang (hb : ∀ t ∈ b, t.tag ≠ .eof) (hbang : ∀ t ∈ b, t.tag ≠ .hashBang)
    (he : e.tag = .eof) (hrun : parseModule .strict (.start (.ofTokens (b ++ [e])) names) = run)
    (hex : run.exhausted = false) (herr : run.errors = []) :
    parseDecls .strict (rules (b.length + 2)) (TokenList.ofTokens (b ++ [e])).tagIndices none
      (b.length + 2) [] [] (.start (.ofTokens (b ++ [e])) names) = run ∧ ∃ os, Derives .decls b os := by
  have hs : (State.start (.ofTokens (b ++ [e])) names).cursor.rest = b ++ [e] := rfl
  have hhead : headTag (State.start (.ofTokens (b ++ [e])) names).cursor.rest ≠ .hashBang := by
    rw [hs]
    cases b with
    | nil =>
      rw [List.nil_append, headTag_cons, he]
      decide
    | cons tok b => exact hbang tok List.mem_cons_self
  have hsize : (TokenList.ofTokens (b ++ [e])).size = b.length + 1 := by
    simp [TokenList.size, TokenList.ofTokens]
  rw [parseModule_eq, takeHashBang_eq hhead, hsize] at hrun
  obtain ⟨u, -, os, hu, hend, hD, -⟩ := parseDecls_strict (by rw [hs]; simp) hrun hex herr
  obtain rfl := eq_of_append_eof (hs ▸ hu) hb hD.nested.ne_eof he hend
  exact ⟨hrun, os, hD⟩

/-- What parses strictly on its own is read at the end of the tokens. -/
theorem parseDecls_back (hb : ∀ t ∈ b, t.tag ≠ .eof) (hbang : ∀ t ∈ b, t.tag ≠ .hashBang)
    (he : e.tag = .eof) {t : State} (hrest : t.cursor.rest = b ++ [e]) {m : Nat} (hm : b.length + 1 ≤ m)
    (hrun : parseModule .strict (.start (.ofTokens (b ++ [e])) t.names) = run)
    (hex : run.exhausted = false) (herr : run.errors = []) (tags : Array Nat) (hashBang : Option Name)
    (decls : List Decl) {n : Nat} (hn : b.length + 2 ≤ n) :
    ∃ s, parseDecls .strict (rules m) tags hashBang n decls [] t =
        .finish hashBang ((relocate t.arena.mark run.module.decls).reverse ++ decls) [] s false ∧
      s.names = run.state.names ∧ s.arena = run.state.arena.behind t.arena := by
  obtain ⟨hloop, os, hD⟩ := parseDecls_of_noHashBang hb hbang he hrun hex herr
  have al : Aligned (.behind t.arena (b.length + 1)) 0 (b ++ [e])
      (.start (.ofTokens (b ++ [e])) t.names) t := by
    refine ⟨(List.append_nil _).symm, hrest.trans (List.append_nil _).symm, fun hd _ => (by cases hd),
      fun hdot => ?_, fun hw => (by cases hw.2), ?_⟩
    · exact absurd hdot (hD.headTag_decls_ne_dot (by rw [headTag_cons, he]; decide))
    · rintro _ ⟨⟩
      exact ⟨rfl, (Arena.empty_behind _).symm, by simp [Window.behind],
        fun hlt => by simp [Window.behind] at hlt⟩
  obtain ⟨y, v', ds, t₁, k, hsplit, hk, hstop, c⟩ :=
    exists_continues (w := .behind t.arena (b.length + 1)) rfl rfl rfl hex herr hloop al
      (by simp) (show _ ≤ m by simpa using hm)
  have hlen := congrArg List.length hsplit
  simp only [List.length_append, List.length_singleton] at hlen
  have hend : (skipped t₁).cursor.isAtEnd = true := by
    rw [isAtEnd_eq, rest_skipped, c.rest, show (Window.behind _ _).right = [] from rfl, List.append_nil]
    rcases hstop with hs | hs <;> rw [hs] <;> rfl
  refine ⟨skipped t₁, ?_, c.names, c.arena⟩
  obtain ⟨i, rfl⟩ : ∃ i, n = i + 1 + k := ⟨n - 1 - k, by omega⟩
  rw [c.loop, parseDecls_end hend, show run.module.decls = ds from c.decls]

/-- **Modules parse independently of each other.**  If some tokens parse strictly, and others without a
`#!` line do so with the names that the first ones leave, then with a line break between them they parse
strictly as one module, which is the second after the first.  So they do if all the names are there
beforehand. -/
theorem parse_strict_append {names₁ names₂ : Interner} {first second : ParseOutput}
    (ha : ∀ t ∈ a, t.tag ≠ .eof) (hb : ∀ t ∈ b, t.tag ≠ .eof) (hbang : ∀ t ∈ b, t.tag ≠ .hashBang)
    (he₀ : e₀.tag = .eof) (hn : n.tag = .newline) (he : e.tag = .eof)
    (h₁ : parse (.ofTokens (a ++ [e₀])) names .strict = (.ok first, names₁))
    (h₂ : parse (.ofTokens (b ++ [e])) names₁ .strict = (.ok second, names₂)) :
    parse (.ofTokens (a ++ n :: (b ++ [e]))) names .strict = (.ok (first.followedBy second), names₂) ∧
      ∀ more, names₂.Kept more →
        parse (.ofTokens (a ++ n :: (b ++ [e]))) more .strict = (.ok (first.followedBy second), more) := by
  have joined : parse (.ofTokens (a ++ n :: (b ++ [e]))) names .strict =
      (.ok (first.followedBy second), names₂) := by
    obtain ⟨run, hrun, hex, herr, rfl, rfl⟩ := parse_strict_run h₁
    obtain ⟨run', hrun', hex', herr', rfl, rfl⟩ := parse_strict_run h₂
    obtain ⟨-, os, hD⟩ := parseDecls_of_noHashBang hb hbang he hrun' hex' herr'
    obtain ⟨t, k, hk, hrest, read⟩ :=
      exists_hasRead ha he₀ hn (hD.headTag_decls_ne_else he) hrun hex herr (TokenList.toList_ofTokens _)
    have hsize : (TokenList.ofTokens (a ++ n :: (b ++ [e]))).size = a.length + b.length + 2 := by
      simp [TokenList.size, TokenList.ofTokens]
      omega
    rw [← read.names] at hrun'
    obtain ⟨i, hi⟩ : ∃ i, (TokenList.ofTokens (a ++ n :: (b ++ [e]))).size + 1 = i + 1 + k :=
      ⟨a.length + b.length + 2 - k, by omega⟩
    obtain ⟨s, hback, hnames, harena⟩ :=
      parseDecls_back hb hbang he hrest (m := (TokenList.ofTokens (a ++ n :: (b ++ [e]))).size + 1)
        (by omega) hrun' hex' herr' (TokenList.ofTokens (a ++ n :: (b ++ [e]))).tagIndices
        run.module.hashBang run.module.decls.reverse (n := i + 1) (by omega)
    have hloop := (read.loop i).trans hback
    rw [← hi] at hloop
    unfold parse
    rw [parseModule_eq, read.hashBang, hloop]
    simp [ModuleRun.finish, ParseOutput.followedBy, hnames, harena, read.arena]
  exact ⟨joined, fun more hmore => parse_withNames joined hmore⟩

end Append

/-! ## Two clauses -/

/-- A clause with an operator that brings a name with it. -/
def shortClause (name value : Name) : List Token :=
  [.ident name, .eq, .ident value, .pipe, .ident value].map (⟨·, .dummy, .first⟩)

/-- Two clauses make one module, the second with the name that the first has brought. -/
theorem two_clauses_append :
    let n : Token := ⟨.newline, .dummy, .first⟩
    let e : Token := ⟨.eof, .dummy, .first⟩
    ∃ first second names₁ names₂,
      parse (.ofTokens (shortClause ⟨1⟩ ⟨2⟩ ++ [e])) .new .strict = (.ok first, names₁) ∧
      parse (.ofTokens (shortClause ⟨3⟩ ⟨4⟩ ++ [e])) names₁ .strict = (.ok second, names₂) ∧
      parse (.ofTokens (shortClause ⟨1⟩ ⟨2⟩ ++ n :: (shortClause ⟨3⟩ ⟨4⟩ ++ [e]))) .new .strict =
        (.ok (first.followedBy second), names₂) ∧
      ∀ more, names₂.Kept more →
        parse (.ofTokens (shortClause ⟨1⟩ ⟨2⟩ ++ n :: (shortClause ⟨3⟩ ⟨4⟩ ++ [e]))) more .strict =
          (.ok (first.followedBy second), more) := by
  intro n e
  have check : (match parse (.ofTokens (shortClause ⟨1⟩ ⟨2⟩ ++ [e])) .new .strict with
      | (.ok _, names) =>
        match parse (.ofTokens (shortClause ⟨3⟩ ⟨4⟩ ++ [e])) names .strict with
        | (.ok _, _) => true
        | _ => false
      | _ => false) = true := by
    decide +kernel
  generalize h₁ : parse (.ofTokens (shortClause ⟨1⟩ ⟨2⟩ ++ [e])) .new .strict = run₁ at check
  obtain ⟨_ | first, names₁⟩ := run₁
  · cases check
  dsimp only at check
  generalize h₂ : parse (.ofTokens (shortClause ⟨3⟩ ⟨4⟩ ++ [e])) names₁ .strict = run₂ at check
  obtain ⟨_ | second, names₂⟩ := run₂
  · cases check
  have plain : ∀ name value, ∀ t ∈ shortClause name value, t.tag ≠ .eof ∧ t.tag ≠ .hashBang := by
    intro name value t ht
    have htag : t.tag ∈ [Tag.ident, .eq, .ident, .pipe, .ident] := List.mem_map_of_mem ht
    constructor
    · intro h
      rw [h] at htag
      exact absurd htag (by decide)
    · intro h
      rw [h] at htag
      exact absurd htag (by decide)
  have joined := parse_strict_append (n := n) (fun t ht => (plain _ _ t ht).1) (fun t ht => (plain _ _ t ht).1)
    (fun t ht => (plain _ _ t ht).2) rfl rfl rfl h₁ h₂
  exact ⟨first, second, names₁, names₂, rfl, h₂, joined.1, joined.2⟩

end SolSyntax
