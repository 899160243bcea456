import SolSyntax.Proofs.SideBySide
import SolSyntax.Proofs.Tokens

/-!
# Errors in one line

A clause that fails before its line ends costs nothing but itself: a lenient parse reads everything
before it and everything after it as these read on their own.  A clause that is still looking for more
when its line ends takes what follows for its own, and the declarations there may be lost with it.

Principal results: `isolated_iff`.
-/

namespace SolSyntax

open Grammar

/-! ## Going on after a line -/

namespace Resync

variable {tokens : TokenList} {t : Token} {r u : List Token} {e i d : Nat}

/-- One token of the scan. -/
theorem topBreakFrom_cons (h : tokens.toList.drop i = t :: r) :
    topBreakFrom tokens.tagIndices e i d =
      if t.tag.isOpening then topBreakFrom tokens.tagIndices e (i + 1) (d + 1)
      else if t.tag.isClosing then topBreakFrom tokens.tagIndices e (i + 1) (d - 1)
      else if t.tag = .newline ∧ d = 0 ∧ e ≤ i then some i
      else topBreakFrom tokens.tagIndices e (i + 1) d := by
  have hget : tokens.tokens[i]? = some t := by
    rw [← Array.getElem?_toList, ← List.head?_drop]
    exact congrArg List.head? h
  obtain ⟨hi, ht⟩ := Array.getElem?_eq_some_iff.1 hget
  have hi' : i < tokens.tagIndices.size := by simpa [TokenList.tagIndices] using hi
  have htag : tokens.tagIndices[i] = t.tag.index := by simp [TokenList.tagIndices, ht]
  rw [topBreakFrom, dif_pos hi', htag, Tag.ofIndex?_index]

theorem drop_succ (h : tokens.toList.drop i = t :: r) : tokens.toList.drop (i + 1) = r := by
  rw [← List.drop_drop, h]
  rfl

theorem drop_append (h : tokens.toList.drop i = u ++ r) : tokens.toList.drop (i + u.length) = r := by
  rw [← List.drop_drop, h, List.drop_left]

/-- The scan passes what is properly bracketed. -/
theorem topBreakFrom_nested {oneLine : Bool} (h : Nested oneLine u)
    (hu : tokens.toList.drop i = u ++ r) (hd : oneLine = true ∨ 0 < d) :
    topBreakFrom tokens.tagIndices e i d = topBreakFrom tokens.tagIndices e (i + u.length) d := by
  induction h generalizing i d r with
  | nil => rfl
  | @token oneLine t u ht hn _ ih =>
    have hplain := ht
    simp only [Tag.isPlain, Bool.and_eq_true, Bool.not_eq_true'] at hplain
    have hbreak : ¬(t.tag = .newline ∧ d = 0 ∧ e ≤ i) := by
      rintro ⟨htag, rfl, -⟩
      rcases hd with rfl | hd
      · exact hn rfl htag
      · omega
    have next := ih (drop_succ hu) hd
    rw [topBreakFrom_cons hu, hplain.1.1, hplain.1.2, if_neg hbreak, List.length_cons,
      show i + (u.length + 1) = i + 1 + u.length by omega, ← next]
    rfl
  | @group oneLine o c u w hp _ _ ih₁ ih₂ =>
    have ho := Tag.isOpening_of_closing? hp
    have hc := Tag.isClosing_of_closing? hp
    have hopen : c.tag.isOpening = false := by
      cases h : c.tag.isOpening with
      | false => rfl
      | true =>
        rw [Tag.isClosing_of_isOpening h] at hc
        cases hc
    rw [List.cons_append, List.append_assoc, List.cons_append] at hu
    have inside : tokens.toList.drop (i + 1) = u ++ c :: (w ++ r) := drop_succ hu
    have atClose := drop_append inside
    have behind := drop_succ atClose
    rw [topBreakFrom_cons hu, if_pos ho, ih₁ inside (d := d + 1) (.inr (by omega)), topBreakFrom_cons atClose,
      hopen, if_pos hc, Nat.add_sub_cancel, ih₂ behind hd, List.length_cons, List.length_append,
      List.length_cons, show i + (u.length + (w.length + 1) + 1) = i + 1 + u.length + 1 + w.length by omega]
    rfl

end Resync

/-- After an error that is noticed in its line, parsing goes on at the end of the line. -/
theorem resyncPoint_line {tokens : TokenList} {n : Token} {u r : List Token} {e i : Nat}
    (hu : Nested true u) (hn : n.tag = .newline) (h : tokens.toList.drop i = u ++ n :: r)
    (he : e ≤ i + u.length) : resyncPoint tokens.tagIndices i e = i + u.length := by
  have found : Resync.topBreakFrom tokens.tagIndices e i 0 = some (i + u.length) := by
    rw [Resync.topBreakFrom_nested hu h (.inl rfl), Resync.topBreakFrom_cons (Resync.drop_append h), hn]
    show (if Tag.newline = .newline ∧ 0 = 0 ∧ e ≤ i + u.length then some (i + u.length) else _) = _
    exact if_pos ⟨rfl, rfl, he⟩
  rw [resyncPoint, found]

/-- Parsing goes on behind every line break that is before the error or else at the error or behind it. -/
theorem min_le_resyncPoint {tags : Array Nat} {declStart errorIndex i : Nat} (hlt : declStart < i)
    (hb : Resync.isBreak tags i = true) : min errorIndex i ≤ resyncPoint tags declStart errorIndex := by
  unfold resyncPoint
  split
  · rename_i j hj
    have := (Resync.topBreakFrom_spec hj).2.1
    omega
  · split
    · rename_i j hj
      have := (Resync.breakFrom_spec hj).1
      omega
    · rename_i hnone
      by_cases he : i < errorIndex
      · have hi := Resync.lt_of_isBreak hb
        obtain ⟨k, hk, hle⟩ := Resync.exists_of_breakBefore hlt (Nat.lt_min.2 ⟨he, hi⟩) hb
        rw [hk, Option.getD_some]
        omega
      · obtain ⟨k, hk⟩ := Resync.exists_of_breakFrom (Nat.le_of_not_lt he) hb
        rw [hk] at hnone
        cases hnone

/-! ## Parts of a module -/

/-- The end that a token list gets. -/
def endOf (u : List Token) : Token :=
  ⟨.eof, .point ((u.getLast?.map fun t => t.span.stop).getD 0), .first⟩

theorem TokenList.toList_ofList {u : List Token} (h : ∀ t ∈ u, t.kind ≠ .eof) :
    (TokenList.ofList u).toList = u ++ [endOf u] := by
  unfold TokenList.ofList endOf
  cases hl : u.getLast? with
  | none => simp
  | some last =>
    have := h last (List.mem_of_getLast? hl)
    simp [this]

/-- The outlines of what was declared. -/
def ParseOutput.outlines (o : ParseOutput) (names : Interner) : List (Outline TokenKind) :=
  o.module.decls.map fun d => o.arena.read names d.view

/-- Tokens of the lexer that parse strictly, on their own, as declarations with some outlines. -/
structure IsSequence (names : Interner) (u : List Token) (os : List (Outline TokenKind)) : Prop where
  sound : ∀ t ∈ u, t.kind.Sound names
  parses : ∃ output names', parse (.ofList u) names .strict = (.ok output, names') ∧
    output.module.hashBang = none ∧ output.outlines names' = os

/-- A clause whose value is properly bracketed and has no line break outside of brackets. -/
structure IsClauseLine (b : List Token) : Prop where
  clause : ∃ name atoms eq value p as, b = name ++ atoms ++ eq :: value ∧ Derives .path name [p] ∧
    Derives (.star .atom) atoms as ∧ eq.tag = .eq ∧ Nested true value

/-- Reading a line fails before its line break is passed. -/
def NoticedInLine (b : List Token) (n : Token) : Prop :=
  ∃ e s, Reader.ofRules declLine (.start (.ofList (b ++ [n])) .new) = .error (.error e) s ∧
    s.cursor.position ≤ b.length

namespace IsClauseLine

variable {b : List Token} (h : IsClauseLine b)

include h

theorem nested : Nested true b := by
  obtain ⟨name, atoms, eq, value, p, as, rfl, hname, hatoms, heq, hvalue⟩ := h.clause
  refine ((hname.nested_inLine rfl).append (hatoms.nested_inLine rfl)).append ?_
  exact .token (by rw [heq]; rfl) (fun _ => by rw [heq]; decide) hvalue

theorem isName : (headTag b).isName = true := by
  obtain ⟨name, atoms, eq, value, p, as, rfl, hname, -⟩ := h.clause
  rw [List.append_assoc, headTag_append (hname.ne_nil rfl)]
  exact hname.isName_path

theorem ne_nil : b ≠ [] := by
  have := h.isName
  rintro rfl
  cases this

theorem ne_eof : ∀ t ∈ b, t.kind ≠ .eof :=
  fun t ht hk => h.nested.ne_eof t ht (by rw [Token.tag, hk]; rfl)

end IsClauseLine

/-! ## The pass over the line -/

section Line

variable {b r : List Token} {n : Token} {m : Nat} {tags : Array Nat} {t f : State} {ps : List Pass}

/-- Two lists that go on with the same line break. -/
def lineWindow (b : List Token) (hn : n.tag = .newline) (hr : headTag (skipBreaks r) ≠ .kwElse) :
    Window where
  left := [n, endOf (b ++ [n])]
  right := n :: r
  tails := by
    refine .line hn hn rfl ?_ (by rwa [skipBreaks_cons hn])
    rw [skipBreaks_cons hn]
    exact fun h => by cases h

theorem toList_line (hb : IsClauseLine b) (hn : n.tag = .newline) :
    (TokenList.ofList (b ++ [n])).toList = b ++ [n, endOf (b ++ [n])] := by
  rw [TokenList.toList_ofList, List.append_assoc]
  · rfl
  · intro tok htok
    rcases List.mem_append.1 htok with htok | htok
    · exact hb.ne_eof tok htok
    · intro hk
      rw [List.mem_singleton.1 htok] at hk
      rw [Token.tag, hk] at hn
      cases hn

/-- The line on its own beside the line in a module. -/
theorem IsClauseLine.meet (hb : IsClauseLine b) (hn : n.tag = .newline)
    (hr : headTag (skipBreaks r) ≠ .kwElse) (hm : b.length ≤ m) (ht : t.cursor.rest = b ++ n :: r) :
    Meet (lineWindow b hn hr) (.start (.ofList (b ++ [n])) .new) t never
      (fun a a' s' t' => Same (lineWindow b hn hr) a a' ∧ ∃ u v o, b = u ++ v ∧ Derives .decl u [o] ∧
        (headTag v = .newline ∨ headTag v = .eof) ∧
        Both (lineWindow b hn hr) (.start (.ofList (b ++ [n])) .new) t 0 v s' t' [a.view] [a'.view] [o])
      (Reader.ofRules declLine (.start (.ofList (b ++ [n])) .new)) (declLine (rules m) t) := by
  have hstart : (State.start (.ofList (b ++ [n])) .new).cursor.rest = b ++ [n, endOf (b ++ [n])] :=
    toList_line hb hn
  have al : Aligned (lineWindow b hn hr) 0 b (.start (.ofList (b ++ [n])) .new) t := by
    refine ⟨hstart, ht, fun _ _ => hb.nested.closes_zero, fun hdot => ?_, fun hw _ => ?_, by rintro _ ⟨⟩⟩
    · have := hb.isName
      rw [hdot] at this
      cases this
    · have := hw.1
      rw [show headTag (lineWindow b hn hr).left = n.tag from rfl, hn] at this
      cases this
  exact declLine_agrees (rules_agree (Nat.le_of_lt al.length_lt_bound.1) hm) al (Nat.lt_succ_self _)

/-- A line whose error is noticed there costs one pass, which leads to its line break. -/
theorem Passes.line (hb : IsClauseLine b) (hn : n.tag = .newline)
    (hr : headTag (skipBreaks r) ≠ .kwElse) (hnoticed : NoticedInLine b n)
    (hm : b.length ≤ m) {tokens : TokenList} (htokens : t.cursor.tokens = tokens)
    (ht : (skipped t).cursor.rest = b ++ n :: r) (hp : Passes (rules m) tokens.tagIndices t ps f) :
    ∃ t' ps', readIn ps = readIn ps' ∧ (errorsIn ps).length = (errorsIn ps').length + 1 ∧
      Passes (rules m) tokens.tagIndices t' ps' f ∧ t'.cursor.tokens = tokens ∧
      t'.cursor.rest = n :: r ∧ t.arena.Kept t'.arena ∧ t.names.Kept t'.names := by
  obtain ⟨e, s', hs', hpos⟩ := hnoticed
  have meets := hb.meet hn hr hm ht
  have onward := Forward.onward (p := declLine (rules (State.start (.ofList (b ++ [n])) .new).bound))
    (.start (.ofList (b ++ [n])) .new)
  have hread : declLine (rules (State.start (.ofList (b ++ [n])) .new).bound)
      (.start (.ofList (b ++ [n])) .new) = .error (.error e) s' := hs'
  rw [hread] at onward
  rw [hs'] at meets
  have onward' := Forward.onward (p := declLine (rules m)) (skipped t)
  generalize hrun : declLine (rules m) (skipped t) = r' at meets onward'
  cases meets with
  | line hl hd hleft hright =>
    have honward : s'.cursor.tokens = .ofList (b ++ [n]) := onward.cursor.tokens
    have hlen : s'.cursor.rest.length < 2 := hleft
    have hsize := congrArg List.length (toList_line hb hn)
    rw [Cursor.length_rest, honward] at hlen
    simp only [TokenList.toList, Array.length_toList, List.length_append, List.length_cons,
      List.length_nil] at hsize
    simp only [TokenList.size] at hlen
    omega
  | ended hw | point hw =>
    have := hw.1
    rw [show headTag (lineWindow b hn hr).left = n.tag from rfl, hn] at this
    cases this
  | @error e e' _ t₁ v hkept hkept' hv hv' _ =>
    have hend : (skipped t).cursor.isAtEnd = false := by
      rw [isAtEnd_eq, ht, headTag_append hb.ne_nil]
      have := hb.isName
      cases h : headTag b <;> simp_all [Tag.isName]
    have honward : (skipped t).cursor.Onward t₁.cursor := onward'.cursor
    obtain ⟨ps', rfl, hps⟩ := hp.eq_resumed hend hrun
    have hlen := congrArg List.length ht
    have hlen₁ := congrArg List.length hv'
    rw [Cursor.length_rest, skipped_tokens, htokens] at hlen
    rw [Cursor.length_rest, honward.tokens, skipped_tokens, htokens] at hlen₁
    simp only [List.length_append, List.length_cons] at hlen
    rw [show (lineWindow b hn hr).right = n :: r from rfl, List.length_append, List.length_cons] at hlen₁
    have hline : tokens.toList.drop (skipped t).cursor.position = b ++ n :: r := by
      rw [← ht, Cursor.rest, skipped_tokens, htokens]
    have htarget := resyncPoint_line hb.nested hn hline (e := t₁.cursor.position) (by omega)
    have hpos : (recover tokens.tagIndices (skipped t).cursor.position t₁).cursor.position =
        (skipped t).cursor.position + b.length := by
      show min (resyncPoint _ _ _) (t₁.cursor.tokens.size - 1) = _
      rw [htarget, honward.tokens, skipped_tokens, htokens]
      omega
    have htokens₁ : (recover tokens.tagIndices (skipped t).cursor.position t₁).cursor.tokens = tokens :=
      honward.tokens.trans htokens
    refine ⟨_, _, ?_, ?_, hps, htokens₁, ?_, hkept', onward'.names⟩
    · simp [readIn, PassEnd.decl?]
    · simp [errorsIn, PassEnd.error?]
    · rw [Cursor.rest, htokens₁, hpos]
      exact Resync.drop_append hline

end Line

/-! ## The passes over the other parts -/

namespace IsSequence

variable {names : Interner} {u : List Token} {os : List (Outline TokenKind)}

theorem toList (h : IsSequence names u os) : (TokenList.ofList u).toList = u ++ [endOf u] :=
  TokenList.toList_ofList fun t ht => (h.sound t ht).ne_eof

/-- The loop behind the parse, and what the tokens are. -/
theorem run (h : IsSequence names u os) :
    headTag u ≠ .hashBang ∧ Derives .decls u os ∧
      ∃ run, parseDecls .strict (rules (State.start (.ofList u) names).bound)
          (TokenList.ofList u).tagIndices none (State.start (.ofList u) names).bound [] []
          (.start (.ofList u) names) = run ∧
        run.exhausted = false ∧ run.errors = [] ∧ names.Kept run.state.names ∧
        (run.module.decls.map fun d => run.state.arena.read run.state.names d.view) = os := by
  obtain ⟨output, names', hparse, hbang, hos⟩ := h.parses
  obtain ⟨run, hrun, hex, herr, rfl, rfl⟩ := parse_strict_run hparse
  have hrest : (State.start (.ofList u) names).cursor.rest = u ++ [endOf u] := h.toList
  have hhead : headTag (State.start (.ofList u) names).cursor.rest ≠ .hashBang := by
    intro htag
    have hsome := takeHashBang_isSome htag
    obtain ⟨_, _, _, _, _, _, hmod, _⟩ := parseDecls_strict
      (s := (takeHashBang (.start (.ofList u) names)).2) (length_rest_le_bound _) hrun hex herr
    have hnone : (takeHashBang (.start (.ofList u) names)).1 = none := by
      have : run.module.hashBang = none := hbang
      rw [hmod] at this
      exact this
    rw [hnone] at hsome
    cases hsome
  have htake := takeHashBang_eq hhead
  unfold parseModule at hrun
  rw [htake] at hrun
  have hloop : parseDecls .strict (rules (State.start (.ofList u) names).bound)
      (TokenList.ofList u).tagIndices none (State.start (.ofList u) names).bound [] []
      (.start (.ofList u) names) = run := hrun
  obtain ⟨u', ds, os', hu', hend, hD, hmod, grown⟩ :=
    parseDecls_strict (length_rest_le_bound _) hloop hex herr
  have htags : ∀ t ∈ u, t.tag ≠ .eof := by
    intro t ht hk
    exact (h.sound t ht).ne_eof (TokenKind.eq_of_tag hk rfl)
  obtain rfl := eq_of_append_eof (hrest ▸ hu') htags hD.nested.ne_eof rfl hend
  have hread := hD.read_decls (fun t ht => (h.sound t ht).mono grown.names) grown.stores
  have hds : run.module.decls = ds := by rw [hmod]; rfl
  have hos' : os' = os := by
    rw [← hread, ← hos, ParseOutput.outlines]
    simp only [hds]
  refine ⟨?_, hos' ▸ hD, run, hloop, hex, herr, grown.names, ?_⟩
  · cases u' with
    | nil => exact fun h => by cases h
    | cons t u =>
      rw [hrest] at hhead
      exact hhead
  · rw [← hos, ParseOutput.outlines]

variable {w : Window} {v : List Token} {m : Nat} {tags : Array Nat} {t f : State} {ps : List Pass}

/-- The passes over the tokens, or over them and their end, when more tokens may follow. -/
theorem beside (h : IsSequence names u os) (hw : headTag w.left = .eof) (hw' : w.pointed = false)
    (hbase : w.base = none) (hleft : u ++ [endOf u] = v ++ w.left) (hdiffers : w.Differs → v = u)
    (ht : t.cursor.rest = v ++ w.right) (hm : v.length ≤ m) (hp : Passes (rules m) tags t ps f) :
    ∃ x v' t' ps' ds', v = x ++ v' ∧ (skipBreaks v' = [] ∨ headTag (skipBreaks v') = .eof) ∧
      readIn ps = ds' ++ readIn ps' ∧ errorsIn ps = errorsIn ps' ∧ Grew t t' (ds'.map Decl.view) os ∧
      Passes (rules m) tags t' ps' f ∧ t'.cursor.tokens = t.cursor.tokens ∧
      t'.cursor.rest = v' ++ w.right := by
  obtain ⟨-, hD, run, hrun, hex, herr, hkept, hread⟩ := h.run
  have hrest : (State.start (.ofList u) names).cursor.rest = u ++ [endOf u] := h.toList
  have al : Aligned w 0 v (.start (.ofList u) names) t := by
    refine ⟨hrest.trans hleft, ht, fun hd _ => ?_, fun hdot => ?_, fun he _ => ?_, fun base hb => ?_⟩
    · rw [hdiffers hd]
      exact hD.nested.closes_zero
    · have hhead : headTag (v ++ w.left) ≠ .dot := by
        rw [← hleft]
        exact hD.headTag_decls_ne_dot (v := [endOf u]) fun h => by cases h
      have hv : v ≠ [] := by
        rintro rfl
        cases hdot
      rw [headTag_append hv] at hhead
      exact absurd hdot hhead
    · rw [hdiffers he.2]
      exact hD.endsWell
    · rw [hbase] at hb
      cases hb
  have hlen := al.length_lt_bound.1
  obtain ⟨x, v', t', ps', ds, ds', os', hsplit, hstop, b⟩ :=
    hp.beside hw hw' hex herr hrun al (Nat.le_of_lt hlen) hm
  have hsound : ∀ tok ∈ x, tok.kind.Sound run.state.names := by
    intro tok htok
    have hmem : tok ∈ u ++ [endOf u] := by simp [hleft, hsplit, htok]
    rcases List.mem_append.1 hmem with hmem | hmem
    · exact (h.sound tok hmem).mono hkept
    · rw [List.mem_singleton.1 hmem] at htok
      exact absurd rfl (b.derives.nested.ne_eof _ htok)
  have hos := b.derives.read_decls hsound b.left.stores
  have hds : run.module.decls = ds := b.decls
  rw [hds, hos] at hread
  exact ⟨x, v', t', ps', ds', hsplit, hstop, b.read, b.errors, hread ▸ b.right, b.passes, b.tokens, b.rest⟩

/-- The passes over the tokens in front of a line. -/
theorem before (h : IsSequence names u os) {n : Token} {r : List Token} (hn : n.tag = .newline)
    (hr : headTag (skipBreaks r) ≠ .kwElse) (hm : u.length ≤ m) (ht : t.cursor.rest = u ++ n :: r)
    (hp : Passes (rules m) tags t ps f) :
    ∃ t' ps' ds', readIn ps = ds' ++ readIn ps' ∧ errorsIn ps = errorsIn ps' ∧
      Grew t t' (ds'.map Decl.view) os ∧ Passes (rules m) tags t' ps' f ∧
      t'.cursor.tokens = t.cursor.tokens ∧ (skipped t').cursor.rest = skipBreaks r := by
  have hr' : headTag (skipBreaks (n :: r)) ≠ .kwElse := by rwa [skipBreaks_cons hn]
  obtain ⟨x, v', t', ps', ds', hsplit, hstop, hread, herrors, grown, hps, htokens, hrest⟩ :=
    h.beside (w := { left := [endOf u], right := n :: r, tails := .ended rfl hn hr' }) rfl rfl rfl rfl
      (fun _ => rfl) ht hm hp
  refine ⟨t', ps', ds', hread, herrors, grown, hps, htokens, ?_⟩
  have hbreaks : AllBreaks v' := allBreaks_of_stop hstop fun tok htok heof =>
    (h.sound tok (by simp [hsplit, htok])).ne_eof (TokenKind.eq_of_tag heof rfl)
  rw [rest_skipped, hrest, skipBreaks_append hbreaks]
  exact skipBreaks_cons hn r

/-- The passes over the tokens behind a line. -/
theorem after (h : IsSequence names u os) (hm : u.length + 1 ≤ m)
    (ht : t.cursor.rest = u ++ [endOf u]) (hp : Passes (rules m) tags t ps f) :
    errorsIn ps = [] ∧ Grew t f ((readIn ps).map Decl.view) os := by
  obtain ⟨x, v', t', ps', ds', hsplit, hstop, hread, herrors, grown, hps, htokens, hrest⟩ :=
    h.beside (w := .whole) (v := u ++ [endOf u]) rfl rfl rfl (List.append_nil _).symm (fun hd => by cases hd)
      (ht.trans (List.append_nil _).symm) (by simpa using hm) hp
  have hend : (skipped t').cursor.isAtEnd = true := by
    rw [isAtEnd_eq, rest_skipped, hrest, show Window.whole.right = [] from rfl, List.append_nil]
    rcases hstop with hs | hs <;> rw [hs] <;> rfl
  cases hps with
  | ended =>
    rw [hread, herrors]
    refine ⟨rfl, ?_⟩
    rw [show readIn [_] = [] from rfl, List.append_nil]
    exact grown.move rfl rfl
  | next hp =>
    rw [hp.not_end] at hend
    cases hend

theorem eq_nil (h : IsSequence names [] os) : os = [] := by
  obtain ⟨-, hD, -⟩ := h.run
  generalize hu : ([] : List Token) = u at hD
  cases hD with
  | declsNil => rfl
  | declsCons _ _ hd _ =>
    have := List.append_eq_nil_iff.1 hu.symm
    exact absurd (List.append_eq_nil_iff.1 this.1).2 (hd.ne_nil rfl)

/-- The passes over the tokens behind a line, the line break included. -/
theorem behind (h : IsSequence names u os) {n e : Token} (hn : n.tag = .newline) (he : e.tag = .eof)
    (hlast : u ≠ [] → e = endOf u) (hm : u.length + 1 ≤ m) (ht : t.cursor.rest = n :: (u ++ [e]))
    (hp : Passes (rules m) tags t ps f) :
    errorsIn ps = [] ∧ Grew t f ((readIn ps).map Decl.view) os := by
  by_cases hu : u = []
  · subst hu
    rw [h.eq_nil]
    have hend : (skipped t).cursor.isAtEnd = true := by
      rw [isAtEnd_eq, rest_skipped, ht, skipBreaks_cons hn, List.nil_append, skipBreaks,
        List.dropWhile_cons, he]
      exact beq_iff_eq.2 he
    cases hp with
    | ended => exact ⟨rfl, (Grew.refl t).move rfl rfl⟩
    | next hp =>
      rw [hp.not_end] at hend
      cases hend
  · rw [hlast hu] at ht
    -- the loop skips the line break anyway
    obtain ⟨t', moved, hrest, hskip⟩ := exists_past_breaks (x := [n]) (by simpa [AllBreaks] using hn) ht
    obtain ⟨ps', hp', hread, herrors⟩ := hp.of_skipped_eq hskip.symm
    rw [← hread, ← herrors]
    obtain ⟨hnone, grown⟩ := h.after hm hrest hp'
    have start : Grew t t' [] [] := (Grew.refl t).move moved.arena moved.names
    exact ⟨hnone, start.trans grown⟩

end IsSequence

/-! ## Isolation -/

theorem endOf_append {u v : List Token} (hv : v ≠ []) : endOf (u ++ v) = endOf v := by
  unfold endOf
  rw [List.getLast?_append, List.getLast?_eq_some_getLast hv, Option.some_or]

/-- A lenient parse of a module in which a line stands between other parts records one error, and
reads declarations with given outlines. -/
def Isolated (names : Interner) (a : List Token) (n : Token) (b : List Token) (n' : Token)
    (c : List Token) (os : List (Outline TokenKind)) : Prop :=
  ∃ output names', parse (.ofList (a ++ n :: (b ++ n' :: c))) names .lenient = (.ok output, names') ∧
    output.errors.length = 1 ∧ output.outlines names' = os

section Isolation

variable {names : Interner} {a b c : List Token} {n n' : Token} {os os' : List (Outline TokenKind)}

/-- The tokens of a module in which a line stands between other parts. -/
theorem toList_parts (ha : IsSequence names a os) (hn : n.tag = .newline) (hb : IsClauseLine b)
    (hn' : n'.tag = .newline) (hc : IsSequence names c os') :
    ∃ e : Token, e.kind = .eof ∧ (c ≠ [] → e = endOf c) ∧
      (TokenList.ofList (a ++ n :: (b ++ n' :: c))).toList = a ++ n :: (b ++ n' :: (c ++ [e])) := by
  refine ⟨endOf (a ++ n :: (b ++ n' :: c)), rfl, fun hne => ?_, ?_⟩
  · rw [show a ++ n :: (b ++ n' :: c) = (a ++ n :: (b ++ [n'])) ++ c by simp, endOf_append hne]
  · rw [TokenList.toList_ofList]
    · simp
    · have hbreak : ∀ t : Token, t.tag = .newline → t.kind ≠ .eof := by
        intro t ht hk
        rw [Token.tag, hk] at ht
        cases ht
      intro t ht
      simp only [List.mem_append, List.mem_cons] at ht
      rcases ht with ht | rfl | ht | rfl | ht
      · exact (ha.sound t ht).ne_eof
      · exact hbreak _ hn
      · exact hb.ne_eof t ht
      · exact hbreak _ hn'
      · exact (hc.sound t ht).ne_eof

theorem IsSequence.headTag_ne (hc : IsSequence names c os') {e : Token} (he : e.tag = .eof) :
    headTag (skipBreaks (c ++ [e])) ≠ .kwElse := by
  obtain ⟨-, hD, -⟩ := hc.run
  exact hD.headTag_decls_ne_else he

/-- A lenient parse of a module in which a line stands between other parts has read the first part when
it comes to the line. -/
theorem parse_parts (ha : IsSequence names a os) (hn : n.tag = .newline) (hb : IsClauseLine b)
    {tokens : TokenList} {e : Token} (he : e.kind = .eof)
    (hlist : tokens.toList = a ++ n :: (b ++ n' :: (c ++ [e]))) :
    ∃ ps f t ps' ds,
      parse tokens names .lenient = (.ok ⟨⟨none, readIn ps⟩, f.arena, errorsIn ps⟩, f.names) ∧
      readIn ps = ds ++ readIn ps' ∧ errorsIn ps = errorsIn ps' ∧
      Grew (.start tokens names) t (ds.map Decl.view) os ∧
      Passes (rules (tokens.size + 1)) tokens.tagIndices t ps' f ∧ t.cursor.tokens = tokens ∧
      (skipped t).cursor.rest = b ++ n' :: (c ++ [e]) := by
  have hend : tokens.EndsInEof := by
    refine ⟨e, ?_, he⟩
    rw [hlist, show a ++ n :: (b ++ n' :: (c ++ [e])) = (a ++ n :: (b ++ n' :: c)) ++ [e] by simp]
    exact List.getLast?_concat
  obtain ⟨ps, f, hps, hcount⟩ := exists_passes_start names hend
  have hparse := hps.parse_eq hcount
  have hstart : (State.start tokens names).cursor.rest = a ++ n :: (b ++ n' :: (c ++ [e])) := hlist
  have hhead : headTag (State.start tokens names).cursor.rest ≠ .hashBang := by
    rw [hstart]
    cases a with
    | nil =>
      rw [List.nil_append, headTag_cons, hn]
      decide
    | cons t a => exact ha.run.1
  rw [takeHashBang_eq hhead] at hps hparse
  have hskip : skipBreaks (b ++ n' :: (c ++ [e])) = b ++ n' :: (c ++ [e]) := by
    refine skipBreaks_eq_self ?_
    rw [headTag_append hb.ne_nil]
    exact (Tag.ne_of_startsDecl (Tag.startsDecl_of_isName hb.isName)).1
  have helse : headTag (skipBreaks (b ++ n' :: (c ++ [e]))) ≠ .kwElse := by
    rw [hskip, headTag_append hb.ne_nil]
    exact (Tag.ne_of_startsDecl (Tag.startsDecl_of_isName hb.isName)).2.2.1
  have hsize : a.length ≤ tokens.size + 1 := by
    have := congrArg List.length hlist
    simp only [TokenList.toList, Array.length_toList, List.length_append] at this
    simp only [TokenList.size]
    omega
  obtain ⟨t, ps', ds, hread, herrors, grown, hps', htokens, hrest⟩ := ha.before hn helse hsize hstart hps
  exact ⟨ps, f, t, ps', ds, hparse, hread, herrors, grown, hps', htokens, hrest.trans hskip⟩

/-- A line whose error is noticed there is isolated. -/
theorem isolated_of_noticed (hb : IsClauseLine b) (hn' : n'.tag = .newline) (h : NoticedInLine b n')
    (hn : n.tag = .newline) (ha : IsSequence names a os) (hc : IsSequence names c os') :
    Isolated names a n b n' c (os ++ os') := by
  obtain ⟨e, he, hlast, hlist⟩ := toList_parts ha hn hb hn' hc
  have hetag : e.tag = .eof := by rw [Token.tag, he]; rfl
  obtain ⟨ps, f, t, ps₁, ds, hparse, hread, herrors, grown, hps, htokens, hrest⟩ :=
    parse_parts ha hn hb he hlist
  have hlen := congrArg List.length hlist
  simp only [TokenList.toList, Array.length_toList, List.length_append, List.length_cons] at hlen
  obtain ⟨t₁, ps₂, hread₁, herrors₁, hps₁, htokens₁, hrest₁, harena, hnames⟩ :=
    hps.line hb hn' (hc.headTag_ne hetag) h (by simp only [TokenList.size]; omega) htokens hrest
  obtain ⟨hnone, grown₁⟩ :=
    hc.behind hn' hetag hlast (by simp only [TokenList.size]; omega) hrest₁ hps₁
  refine ⟨_, _, hparse, ?_, ?_⟩
  · show (errorsIn ps).length = 1
    rw [herrors, herrors₁, hnone]
    rfl
  · have hkept : t.names.Kept f.names := hnames.trans grown₁.names
    have hstores := grown.stores.mono hkept (harena.trans grown₁.arena)
    have hsound : ∀ tok ∈ a, tok.kind.Sound f.names :=
      fun tok htok => (ha.sound tok htok).mono (grown.names.trans hkept)
    have hsound' : ∀ tok ∈ c, tok.kind.Sound f.names :=
      fun tok htok => (hc.sound tok htok).mono (grown.names.trans hkept)
    show (readIn ps).map _ = _
    rw [hread, hread₁, List.map_append, ha.run.2.1.read_decls hsound hstores,
      hc.run.2.1.read_decls hsound' grown₁.stores]

end Isolation

/-! ## Lines that are not isolated -/

/-- Which form of declaration an outline is of. -/
def Outline.kindForm : Outline α → Option Form
  | node (.decl _) [_, node form _] => some form
  | _ => none

/-- What is read back is of the form that was read. -/
theorem Stores.kindForm {names names' : Interner} {a a' : Arena} {m m' : Mark} {d : Decl}
    {o : Outline TokenKind} (h : Stores names a m [d.view] [o] m') :
    (a'.read names' d.view).kindForm = o.kindForm := by
  obtain ⟨us, ho, parts⟩ := h.unwrap
  cases ho
  obtain ⟨attrs, _, _, he, -, second⟩ := parts.split
  cases he
  cases hk : d.kind <;>
  · rw [hk] at second
    obtain ⟨_, he, -⟩ := second.unwrap
    cases he
    simp [Arena.read, Decl.view, hk, DeclKind.view, Outline.kindForm]

/-- A declaration that begins with a name is a signature or a clause. -/
theorem Derives.kindForm {u : List Token} {o : Outline TokenKind} (h : Derives .decl u [o])
    (hu : (headTag u).isName = true) : o.kindForm ≠ some .using := by
  -- nothing that begins with a name stands before a declaration
  have first : ∀ {v w : List Token} {as : List (Outline TokenKind)}, Derives .attrs v as →
      (headTag (v ++ w)).isName = true → v = [] := by
    intro v w as hattrs hhead
    cases v with
    | nil => rfl
    | cons t v =>
      rcases hattrs.headTag_attrs with hv | hv | hv
      · exact hv
      · rw [List.cons_append, headTag_cons, show t.tag = _ from hv] at hhead
        cases hhead
      · rw [List.cons_append, headTag_cons, show t.tag = _ from hv] at hhead
        cases hhead
  cases h with
  | decl hattrs hkind =>
    rw [first hattrs hu, List.nil_append] at hu
    cases hkind with
    | usingDecl hk =>
      rw [headTag_cons, hk] at hu
      cases hu
    | _ => simp [Outline.kindForm]
  | @visibleDecl _ t _ _ _ _ hv hattrs hkind =>
    rw [first hattrs hu, List.nil_append, headTag_cons, Token.tag] at hu
    cases hk : t.kind <;> simp_all [TokenKind.visibility?, TokenKind.tag, Tag.isName]

/-- Two declarations in two lines. -/
def twoUsings : List Token :=
  [⟨.kwUsing, .dummy, .first⟩, ⟨.ident .empty, .dummy, .first⟩, ⟨.newline, .dummy, .first⟩,
    ⟨.kwUsing, .dummy, .first⟩, ⟨.ident .empty, .dummy, .first⟩]

theorem twoUsings_isSequence :
    ∃ os, IsSequence .new twoUsings os ∧ os.map Outline.kindForm = [some .using, some .using] := by
  have check : (match parse (.ofList twoUsings) .new .strict with
      | (.ok output, names) => output.module.hashBang.isNone &&
          decide ((output.outlines names).map Outline.kindForm = [some .using, some .using])
      | _ => false) = true := by
    decide +kernel
  generalize hrun : parse (.ofList twoUsings) .new .strict = run at check
  obtain ⟨_ | output, names⟩ := run
  · cases check
  · simp only [Bool.and_eq_true, Option.isNone_iff_eq_none, decide_eq_true_eq] at check
    refine ⟨_, ⟨fun t ht => ?_, output, names, hrun, check.1, rfl⟩, check.2⟩
    refine .of_tag ?_
    simp only [twoUsings, List.mem_cons, List.not_mem_nil, or_false] at ht
    rcases ht with rfl | rfl | rfl | rfl | rfl <;> exact ⟨by decide, by decide⟩

theorem nil_isSequence : IsSequence .new [] [] := by
  have check : (match parse (.ofList []) .new .strict with
      | (.ok output, _) => output.module.hashBang.isNone && output.module.decls.isEmpty
      | _ => false) = true := by
    decide +kernel
  generalize hrun : parse (.ofList []) .new .strict = run at check
  obtain ⟨_ | output, names⟩ := run
  · cases check
  · simp only [Bool.and_eq_true, Option.isNone_iff_eq_none, List.isEmpty_iff] at check
    refine ⟨fun t ht => (by cases ht), output, names, hrun, check.1, ?_⟩
    rw [ParseOutput.outlines, check.2]
    rfl

section Lost

variable {b : List Token} {n n' e : Token} {tokens : TokenList} {m : Nat} {t f : State}
  {ps : List Pass}

/-- A declaration of the line is no `using`. -/
theorem IsClauseLine.kindForm (hb : IsClauseLine b) {r : List Token} {s s' : State} {d : Decl}
    (hs : s.cursor.rest = b ++ r) (hm : s.cursor.rest.length ≤ m)
    (hd : declLine (rules m) s = .ok d s') (names : Interner) (a : Arena) :
    (a.read names d.view).kindForm ≠ some .using := by
  obtain ⟨u, o, read⟩ := DeclRead.of_ok hm hd
  rw [read.grew.stores.kindForm]
  refine read.derives.kindForm ?_
  have hhead : headTag (u ++ s'.cursor.rest) = headTag b := by
    rw [← read.rest, hs, headTag_append hb.ne_nil]
  rw [headTag_append (read.derives.ne_nil rfl)] at hhead
  rw [hhead]
  exact hb.isName

/-- Behind an error that is noticed after the line break of a line, at most one of two lines is left. -/
theorem Passes.lost (hT : tokens.EndsInEof) (hm : tokens.size ≤ m) (he : e.tag = .eof)
    (htokens : t.cursor.tokens = tokens)
    (ht : (skipped t).cursor.rest = b ++ n :: (twoUsings ++ [e])) {err : SyntaxError} {t₁ : State}
    (hd : declLine (rules m) (skipped t) = .error (.error err) t₁)
    (hpast : t₁.cursor.rest.length < (n :: (twoUsings ++ [e])).length)
    (hp : Passes (rules m) tokens.tagIndices t ps f) : (readIn ps).length ≤ 1 := by
  cases hp with
  | ended => exact Nat.zero_le _
  | @next _ t₂ _ p ps hp hps =>
    have hg := hp.progressed hT hm htokens
    have hbetween := hps.count_between hT hm hg.tokens hg.isBetween
    obtain ⟨rfl, rfl⟩ := hp.eq_resumed hd
    have hread : ∀ q : Pass, q.outcome.decl? = none → readIn (q :: ps) = readIn ps := by
      intro q hq
      rw [readIn, List.filterMap_cons, hq]
      rfl
    rw [hread _ rfl]
    refine Nat.le_trans (Nat.le_trans (Nat.le_add_right _ _) hbetween) ?_
    have hline : tokens.toList.drop (skipped t).cursor.position = b ++ n :: (twoUsings ++ [e]) := by
      rw [← ht, Cursor.rest, skipped_tokens, htokens]
    have hbehind := Resync.drop_succ (Resync.drop_append hline)
    have hsize := congrArg List.length hline
    have onward := Forward.onward (p := declLine (rules m)) (skipped t)
    rw [hd] at onward
    have htokens₁ : t₁.cursor.tokens = tokens := onward.cursor.tokens.trans htokens
    rw [Cursor.length_rest, htokens₁] at hpast
    simp only [List.length_drop, List.length_append, List.length_cons, List.length_nil, twoUsings,
      TokenList.toList, Array.length_toList] at hsize
    simp only [List.length_append, List.length_cons, List.length_nil, twoUsings, TokenList.size] at hpast
    -- the line break between the two lines is behind that of the line
    have hbreak : Resync.isBreak tokens.tagIndices ((skipped t).cursor.position + b.length + 1 + 2) = true := by
      rw [isBreak_tagIndices, tagAt_eq_headTag, ← List.drop_drop, hbehind]
      rfl
    have hlt : (skipped t).cursor.position < (skipped t).cursor.position + b.length + 1 + 2 := by omega
    have hle : min t₁.cursor.position _ ≤ _ := min_le_resyncPoint hlt hbreak
    have hpos : (skipped t).cursor.position + b.length + 1 ≤
        (recover tokens.tagIndices (skipped t).cursor.position t₁).cursor.position := by
      show _ ≤ min (resyncPoint _ _ _) (t₁.cursor.tokens.size - 1)
      rw [htokens₁, TokenList.size]
      omega
    obtain ⟨k, hk⟩ := Nat.le.dest hpos
    rw [breaksLeft, Cursor.rest, ← hk, hg.tokens, ← List.drop_drop, hbehind]
    refine Nat.le_trans (List.drop_sublist _ _).countP_le ?_
    rw [List.countP_append, List.countP_singleton, he]
    decide

/-- If two lines are read after a line its error is noticed in it. -/
theorem Passes.noticed (hb : IsClauseLine b) (hn : n.tag = .newline) (hT : tokens.EndsInEof)
    (hm : tokens.size ≤ m) (he : e.tag = .eof) (htokens : t.cursor.tokens = tokens)
    (ht : (skipped t).cursor.rest = b ++ n :: (twoUsings ++ [e])) (names : Interner) (a : Arena)
    (hp : Passes (rules m) tokens.tagIndices t ps f)
    (htwo : (readIn ps).map (fun d => (a.read names d.view).kindForm) = [some .using, some .using]) :
    NoticedInLine b n := by
  have hlen : (skipped t).cursor.rest.length ≤ m := by
    rw [Cursor.length_rest, skipped_tokens, htokens]
    exact Nat.le_trans (Nat.sub_le _ _) hm
  have hb_le : b.length ≤ m := by
    rw [ht, List.length_append] at hlen
    omega
  have helse : headTag (skipBreaks (twoUsings ++ [e])) ≠ .kwElse := by
    show Tag.kwUsing ≠ .kwElse
    decide
  have meets := hb.meet hn helse hb_le ht
  obtain ⟨d, t₁, u, o, hd, -⟩ | ⟨err, t₁, hd⟩ := declLine_cases hlen
  · -- the line is read as a declaration, and that is none of the two
    have hline := hb.kindForm ht hlen hd names a
    cases hp with
    | ended => cases htwo
    | next hp hps =>
      obtain ⟨rfl, rfl⟩ := hp.eq_read hd
      rw [readIn, List.filterMap_cons] at htwo
      simp only [PassEnd.decl?, List.map_cons, List.cons.injEq] at htwo
      exact absurd htwo.1 hline
  · have hlost := hp.lost hT hm he htokens ht hd
    rw [hd] at meets
    unfold NoticedInLine
    generalize hl : Reader.ofRules declLine (.start (.ofList (b ++ [n])) .new) = left at meets ⊢
    cases meets with
    | line _ _ _ hpast =>
      have htwo := congrArg List.length htwo
      rw [List.length_map, List.length_cons, List.length_singleton] at htwo
      have := hlost hpast
      omega
    | ended hw | point hw =>
      have htag : n.tag = .eof := hw.1
      rw [hn] at htag
      cases htag
    | @error e₀ _ s₁ _ v _ _ hv _ _ =>
      refine ⟨e₀, s₁, rfl, ?_⟩
      have onward := Forward.onward (p := declLine (rules (State.start (.ofList (b ++ [n])) .new).bound))
        (.start (.ofList (b ++ [n])) .new)
      rw [show declLine (rules (State.start (.ofList (b ++ [n])) .new).bound)
        (.start (.ofList (b ++ [n])) .new) = .error (.error e₀) s₁ from hl] at onward
      have hstart : s₁.cursor.tokens = .ofList (b ++ [n]) := onward.cursor.tokens
      have hv := congrArg List.length hv
      have hsize := congrArg List.length (toList_line hb hn)
      rw [Cursor.length_rest, hstart, show (lineWindow b hn helse).left = [n, endOf (b ++ [n])] from rfl,
        List.length_append, List.length_cons, List.length_singleton] at hv
      simp only [TokenList.toList, Array.length_toList, List.length_append, List.length_cons,
        List.length_nil] at hsize
      simp only [TokenList.size] at hv
      omega

end Lost

/-- If a line is isolated between nothing and two lines its error is noticed in it. -/
theorem noticed_of_isolated {b : List Token} {n' : Token} {os : List (Outline TokenKind)}
    (hb : IsClauseLine b) (hn' : n'.tag = .newline) (hc : IsSequence .new twoUsings os)
    (hforms : os.map Outline.kindForm = [some .using, some .using])
    (h : Isolated .new [] n' b n' twoUsings os) : NoticedInLine b n' := by
  obtain ⟨e, he, -, hlist⟩ := toList_parts nil_isSequence hn' hb hn' hc
  have hetag : e.tag = .eof := by rw [Token.tag, he]; rfl
  obtain ⟨ps, f, t, ps', ds, hparse, hread, herrors, grown, hps, htokens, hrest⟩ :=
    parse_parts nil_isSequence hn' hb he hlist
  obtain ⟨output, names', hparse', hone, houtlines⟩ := h
  rw [hparse] at hparse'
  cases hparse'
  have hds : ds = [] := by
    have := grown.stores.length_eq
    rw [List.length_map] at this
    exact List.eq_nil_of_length_eq_zero this.symm
  rw [hds, List.nil_append] at hread
  have htwo : (readIn ps').map (fun d => (f.arena.read f.names d.view).kindForm) =
      [some .using, some .using] := by
    rw [← hforms, ← houtlines, ParseOutput.outlines, List.map_map, ← hread]
    rfl
  have hends : (TokenList.ofList ([] ++ n' :: (b ++ n' :: twoUsings))).EndsInEof := by
    refine ⟨e, ?_, he⟩
    rw [hlist, show [] ++ n' :: (b ++ n' :: (twoUsings ++ [e])) = (n' :: (b ++ n' :: twoUsings)) ++ [e] by
      simp]
    exact List.getLast?_concat
  exact hps.noticed hb hn' hends (Nat.le_succ _) hetag htokens hrest _ _ htwo

/-- A line is isolated from all that may stand before and after it just if its error is noticed in it. -/
theorem isolated_iff {b : List Token} {n' : Token} (hb : IsClauseLine b) (hn' : n'.tag = .newline) :
    (∀ names a n c os os', n.tag = .newline → IsSequence names a os → IsSequence names c os' →
      Isolated names a n b n' c (os ++ os')) ↔ NoticedInLine b n' := by
  constructor
  · intro h
    obtain ⟨os, hc, hforms⟩ := twoUsings_isSequence
    exact noticed_of_isolated hb hn' hc hforms (h .new [] n' twoUsings [] os hn' nil_isSequence hc)
  · intro h names a n c os os' hn ha hc
    exact isolated_of_noticed hb hn' h hn ha hc

/-! ## Two lines -/

/-- A clause whose value is made of some tokens. -/
def clauseLine (value : List TokenKind) : List Token :=
  (.ident .empty :: .eq :: value).map (⟨·, .dummy, .first⟩)

def lineBreak : Token := ⟨.newline, .dummy, .first⟩

theorem clauseLine_isClauseLine {value : List TokenKind}
    (h : Nested true (value.map (⟨·, .dummy, .first⟩))) : IsClauseLine (clauseLine value) :=
  ⟨[⟨.ident .empty, .dummy, .first⟩], [], ⟨.eq, .dummy, .first⟩, _, _, _, rfl,
    .path (.ident rfl) (.starNil _), .starNil _, rfl, h⟩

/-- Where reading a line leaves off, if it fails. -/
def failureIndex? (b : List Token) (n : Token) : Option Nat :=
  match Reader.ofRules declLine (.start (.ofList (b ++ [n])) .new) with
  | .error (.error _) s => some s.cursor.position
  | _ => none

theorem noticedInLine_iff {b : List Token} {n : Token} :
    NoticedInLine b n ↔ ∃ i, failureIndex? b n = some i ∧ i ≤ b.length := by
  unfold NoticedInLine failureIndex?
  cases Reader.ofRules declLine (.start (.ofList (b ++ [n])) .new) with
  | ok d s => simp
  | error e s =>
    cases e with
    | error e =>
      refine ⟨?_, ?_⟩
      · rintro ⟨_, _, ⟨⟩, hle⟩
        exact ⟨_, rfl, hle⟩
      · rintro ⟨_, ⟨⟩, hle⟩
        exact ⟨e, s, rfl, hle⟩
    | exhausted => simp

/-- A value that begins with an operator goes wrong in its line, and so leaves the declarations before
and after it alone. -/
theorem operator_line_isolated :
    let b := clauseLine [.operator .empty]
    IsClauseLine b ∧ lineBreak.tag = .newline ∧
      ((∀ names a n c os os', n.tag = .newline → IsSequence names a os → IsSequence names c os' →
        Isolated names a n b lineBreak c (os ++ os')) ↔ NoticedInLine b lineBreak) ∧
      ∃ os, Isolated .new twoUsings lineBreak b lineBreak twoUsings (os ++ os) := by
  intro b
  have hb : IsClauseLine b := clauseLine_isClauseLine (.single rfl fun _ => by decide)
  have hnoticed : NoticedInLine b lineBreak := noticedInLine_iff.2 ⟨2, by decide +kernel, by decide⟩
  obtain ⟨os, hc, -⟩ := twoUsings_isSequence
  refine ⟨hb, rfl, isolated_iff hb rfl, os, ?_⟩
  exact (isolated_iff hb rfl).2 hnoticed .new _ lineBreak _ os os rfl hc hc

/-- An `if` without `then` looks for that beyond its line, where it takes a line that follows: that an
error in a properly bracketed value is always isolated is not so. -/
theorem open_if_line_not_isolated :
    ¬∀ names a n b n' c os os', n.tag = .newline → n'.tag = .newline → IsSequence names a os →
      IsSequence names c os' → IsClauseLine b →
      (∃ e names', parse (.ofList b) names .strict = (.error (.error e), names')) →
      Isolated names a n b n' c (os ++ os') := by
  intro h
  have hb : IsClauseLine (clauseLine [.kwIf, .ident .empty]) :=
    clauseLine_isClauseLine (.token rfl (fun _ => by decide) (.single rfl fun _ => by decide))
  have hfails : ∃ e names', parse (.ofList (clauseLine [.kwIf, .ident .empty])) .new .strict =
      (.error (.error e), names') := by
    have check : (match parse (.ofList (clauseLine [.kwIf, .ident .empty])) .new .strict with
        | (.error (.error _), _) => true
        | _ => false) = true := by
      decide +kernel
    generalize parse (.ofList (clauseLine [.kwIf, .ident .empty])) .new .strict = run at check
    obtain ⟨(e | _) | _, names⟩ := run
    · exact ⟨e, names, rfl⟩
    · cases check
    · cases check
  obtain ⟨os, hc, hforms⟩ := twoUsings_isSequence
  have hisolated := h .new [] lineBreak _ lineBreak _ [] os rfl rfl nil_isSequence hc hb hfails
  obtain ⟨i, hi, hle⟩ := noticedInLine_iff.1 (noticed_of_isolated hb rfl hc hforms hisolated)
  -- the line ends at index 4, and the failure is behind that
  have hfive : failureIndex? (clauseLine [.kwIf, .ident .empty]) lineBreak = some 5 := by
    decide +kernel
  rw [hfive] at hi
  cases hi
  exact absurd hle (by decide)

end SolSyntax
