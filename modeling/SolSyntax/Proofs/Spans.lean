import SolSyntax.Proofs.FirstError
import SolSyntax.Proofs.Tokens
import SolSyntax.Proofs.WrittenDecls

/-!
# Spans

What a parse gives is written with the tokens of the source: every node that its module leads to has the
span from the start of the first token to the stop of the last one that it is written with.  Hence parts
lie inside the whole, one after the other; and so do the declarations, also after errors.

Principal results: `Passes.written` — every declaration that the loop reads has a place of its own;
`parseSource_spans` — the spans of a parse are exact.
-/

namespace SolSyntax

open Grammar

/-- What a module leads to: its declarations, their parts, the parts of these, and so on. -/
inductive ParseOutput.Reaches (o : ParseOutput) : Node → Prop
  | decl {d} : d ∈ o.module.decls → Reaches o (.decl d)
  | part {x y} : Reaches o x → y ∈ x.parts o.arena → Reaches o y

/-- The spans of all that a module leads to are those of the tokens it is written with. -/
structure TokenList.HasExactSpans (ts : TokenList) (o : ParseOutput) : Prop where
  /-- A node is written as a row of tokens and parts, and its span covers just the tokens of the row. -/
  exact : ∀ x, o.Reaches x → ∃ row i j, o.arena.Writes x row ∧ Written ts o.arena row i j ∧
    ts.Covers i j (x.span o.arena)
  /-- Parts lie inside. -/
  inside : ∀ x, o.Reaches x → ∀ y ∈ x.parts o.arena,
    (x.span o.arena).start ≤ (y.span o.arena).start ∧ (y.span o.arena).stop ≤ (x.span o.arena).stop
  /-- Parts come one after the other. -/
  apart : ∀ x, o.Reaches x →
    (x.parts o.arena).Pairwise fun y z => (y.span o.arena).stop ≤ (z.span o.arena).start
  /-- Declarations come one after the other. -/
  declsApart : o.module.decls.Pairwise fun d e => d.span.stop ≤ e.span.start

/-- Declarations with places one after the other are all that has to be known. -/
theorem TokenList.HasExactSpans.of_decls {ts : TokenList} {o : ParseOutput} (hts : ts.InOrder)
    (hdecls : ∀ d ∈ o.module.decls, ∃ i j, Written ts o.arena [.part (.decl d)] i j)
    (hapart : o.module.decls.Pairwise fun d e => d.span.stop ≤ e.span.start) :
    ts.HasExactSpans o := by
  have placed : ∀ x, o.Reaches x → ∃ i j, Written ts o.arena [.part x] i j := by
    intro x hx
    induction hx with
    | decl hd => exact hdecls _ hd
    | part _ hy ih =>
      obtain ⟨i, j, h⟩ := ih
      obtain ⟨row, -, hparts, hrow⟩ := h.exists_row
      obtain ⟨l, k, -, -, hl⟩ := hrow.exists_part (hparts ▸ hy)
      exact ⟨l, k, hl⟩
  constructor
  case exact =>
    intro x hx
    obtain ⟨i, j, h⟩ := placed x hx
    obtain ⟨row, hw, -, hrow⟩ := h.exists_row
    exact ⟨row, i, j, hw, hrow, h.covers⟩
  case inside =>
    intro x hx y hy
    obtain ⟨i, j, h⟩ := placed x hx
    obtain ⟨row, -, hparts, hrow⟩ := h.exists_row
    obtain ⟨l, k, hil, hkj, hl⟩ := hrow.exists_part (hparts ▸ hy)
    exact h.covers.inside hts hl.covers hil hkj
  case apart =>
    intro x hx
    obtain ⟨i, j, h⟩ := placed x hx
    obtain ⟨row, -, hparts, hrow⟩ := h.exists_row
    exact hparts ▸ hrow.apart hts
  case declsApart => exact hapart

/-! ## The loop -/

section Loop

variable {tokens : TokenList} {m : Nat} {s t : State} {ps : List Pass}

/-- Every declaration that the loop reads is written behind those before it. -/
theorem Passes.written (hts : tokens.InOrder) (hT : tokens.EndsInEof) (hm : tokens.size ≤ m)
    (h : Passes (rules m) tokens.tagIndices s ps t) (hs : Inside tokens s) :
    (∀ d ∈ readIn ps, ∃ i j, s.cursor.position ≤ i ∧ Written tokens t.arena [.part (.decl d)] i j) ∧
      (readIn ps).Pairwise fun d e => d.span.stop ≤ e.span.start := by
  induction h with
  | ended => exact ⟨fun d hd => (by cases hd), .nil⟩
  | @next s s' t p ps hp hps ih =>
    have hg := hp.progressed hT hm hs.tokens
    obtain ⟨placed, apart⟩ := ih ⟨hg.tokens, Nat.le_of_lt hg.inside⟩
    have hle : s.cursor.position ≤ s'.cursor.position :=
      Nat.le_of_lt (Nat.lt_of_le_of_lt (hg.start.1 ▸ hg.start.2) hg.onward)
    have later : ∀ d ∈ readIn ps, ∃ i j, s.cursor.position ≤ i ∧
        Written tokens t.arena [.part (.decl d)] i j := by
      intro d hd
      obtain ⟨i, j, hi, hw⟩ := placed d hd
      exact ⟨i, j, Nat.le_trans hle hi, hw⟩
    cases hp with
    | resumed => exact ⟨later, apart⟩
    | @read d _ hend hd =>
      have hskip : Inside tokens (skipped s) := by
        refine ⟨hs.tokens, ?_⟩
        show Cursor.skipFrom s.cursor.tokens _ s.cursor.position ≤ _
        rw [hs.tokens]
        exact Cursor.skipFrom_le_stop rfl (TokenList.tagAt_of_size_le (Nat.le_refl _)) hs.le
      have taken := declLine_reads hts (rules_read hts m) hskip hd
      have retained := (hps.kept hm hg.tokens).retains
      rw [readIn_cons_read]
      refine ⟨fun e he => ?_, List.pairwise_cons.2 ⟨fun e he => ?_, apart⟩⟩
      · rcases List.mem_cons.1 he with rfl | he
        · exact ⟨_, _, Cursor.le_skipFrom _ _ _, taken.written.mono retained⟩
        · exact later e he
      · obtain ⟨i, j, hi, hw⟩ := placed e he
        exact (taken.covers retained).apart hts hw.covers hi

/-- A parse that gives an output is told by passes, whatever it does after errors. -/
theorem exists_passes_of_parse {names names' : Interner} {recovery : Recovery} {output : ParseOutput}
    (hT : tokens.EndsInEof) (h : parse tokens names recovery = (.ok output, names')) :
    ∃ ps t, Passes (rules (tokens.size + 1)) tokens.tagIndices
        (takeHashBang (.start tokens names)).2 ps t ∧
      output.module.decls = readIn ps ∧ output.arena = t.arena ∧ output.errors = errorsIn ps := by
  obtain ⟨ps, t, hps, hlen⟩ := exists_passes_start names hT
  refine ⟨ps, t, hps, ?_⟩
  cases recovery with
  | lenient =>
    rw [hps.parse_eq hlen] at h
    cases h
    exact ⟨rfl, rfl, rfl⟩
  | strict =>
    cases herr : errorsIn ps with
    | nil =>
      rw [hps.parse_strict_eq hlen herr] at h
      cases h
      exact ⟨rfl, rfl, herr⟩
    | cons e es =>
      obtain ⟨n, hstrict⟩ := hps.parse_strict_first hlen herr
      rw [hstrict] at h
      cases h

end Loop

/-! ## Whole sources -/

/-- The tokens of a source end in `eof`. -/
theorem endsInEof_of_lex {source : String} {names names' : Interner} {tokens : TokenList}
    (h : lex source names = (.ok tokens, names')) : tokens.EndsInEof := by
  obtain ⟨body, last, hbody, hlast, -⟩ := lex_sound h
  exact ⟨last, by rw [hbody, List.getLast?_concat], hlast⟩

/-- **Spans are exact.**  Whatever a parse gives, strict or lenient, every node that its module leads to
has as its span just the range from the start of the first to the stop of the last token that it is
written with.  Parts lie inside the whole, parts of one node come one after the other, and so do the
declarations of the module. -/
theorem parseSource_spans {source : String} {names names' : Interner} {recovery : Recovery}
    {output : ParseOutput} (h : parseSource source names recovery = (.ok output, names')) :
    ∃ tokens names₁, lex source names = (.ok tokens, names₁) ∧ tokens.HasExactSpans output := by
  obtain ⟨tokens, names₁, hlex, hparse⟩ := exists_lexed h
  refine ⟨tokens, names₁, hlex, ?_⟩
  have hts := (lex_counted hlex).1
  have hT := endsInEof_of_lex hlex
  obtain ⟨ps, t, hps, hdecls, harena, -⟩ := exists_passes_of_parse hT hparse
  obtain ⟨b, hrest, -, ht, -⟩ := takeHashBang_spec (.start tokens names₁)
  have hstart : Inside tokens (takeHashBang (.start tokens names₁)).2 := by
    refine ⟨ht, ?_⟩
    unfold takeHashBang
    split
    · exact (Cursor.start tokens).onward_advance.bound (Nat.zero_le _)
    · exact Nat.zero_le _
  obtain ⟨placed, apart⟩ := hps.written hts hT (Nat.le_succ _) hstart
  refine .of_decls hts (fun d hd => ?_) (hdecls ▸ apart)
  obtain ⟨i, j, -, hw⟩ := placed d (hdecls ▸ hd)
  exact ⟨i, j, harena ▸ hw⟩

/-- Two declarations with an error between them. -/
theorem error_between_spans :
    ∃ output names',
      parseSource "f (A x) = [x, g {y}]\nh = )\n@a inductive N : T -> T { S(N), }" .new .lenient =
        (.ok output, names') ∧
      output.module.decls.length = 2 ∧ output.errors.length = 1 ∧
      ∃ tokens names₁,
        lex "f (A x) = [x, g {y}]\nh = )\n@a inductive N : T -> T { S(N), }" .new =
          (.ok tokens, names₁) ∧ tokens.HasExactSpans output := by
  have found : (parseSource "f (A x) = [x, g {y}]\nh = )\n@a inductive N : T -> T { S(N), }" .new
      .lenient).1.toOption.map (fun o => (o.module.decls.length, o.errors.length)) = some (2, 1) := by
    decide +kernel
  cases hparse : parseSource "f (A x) = [x, g {y}]\nh = )\n@a inductive N : T -> T { S(N), }" .new
      .lenient with
  | mk result names' =>
    rw [hparse] at found
    cases result with
    | error e => cases found
    | ok output =>
      have hlengths := Prod.mk.inj (Option.some.inj found)
      exact ⟨output, names', rfl, hlengths.1, hlengths.2, parseSource_spans hparse⟩

end SolSyntax
