import SolSyntax.Proofs.ForkModules
import SolSyntax.Proofs.Insertion
import SolSyntax.Proofs.Spans

/-!
# What an error expects

An error lists the tags that were asked for where it stands.  With a token of such a tag there, and some others behind
it, the parse gets on; what is found there is none of them.  Three tags are asked for where they are refused: what
stands before a visibility, behind one; the end of a block, behind an `if` without `else`; and the end of the parameters
of a lambda, before the first one.  And a bracket that makes an expression of parameters may leave a quote in it, which
is then refused.

Principal result: `expected_accepted` — what is expected is accepted, but for these.
-/

namespace SolSyntax

open Grammar

/-- A strict parse succeeds. -/
def Parses (ts : TokenList) (names : Interner) : Prop :=
  ∃ output names', parse ts names .strict = (.ok output, names')

/-- A strict parse fails with an error, with the cursor at an index. -/
structure FailsAt (ts : TokenList) (names : Interner) (e : SyntaxError) (i : Nat) : Prop where
  fails : ∃ names', parse ts names .strict = (.error (.error e), names')
  cursor : (parseModule .strict (.start ts names)).state.cursor.position = i

section Fails

variable {ts : TokenList} {names : Interner} {e : SyntaxError} {i : Nat}

theorem FailsAt.mem_errors (h : FailsAt ts names e i) : e ∈ (parseModule .strict (.start ts names)).errors := by
  obtain ⟨⟨names', hparse⟩, -⟩ := h
  obtain ⟨-, -, herrors⟩ := (parse_error_iff rfl).1 (congrArg Prod.fst hparse)
  exact List.mem_of_head? herrors

/-- A parse that fails does not do so past the end. -/
theorem FailsAt.lt_size (hT : ts.EndsInEof) (h : FailsAt ts names e i) : i < ts.size := by
  have hpos : 0 < ts.size := by
    obtain ⟨last, hlast, -⟩ := hT
    have hne : ts.toList ≠ [] := fun hnil => by rw [hnil] at hlast; cases hlast
    exact List.length_pos_iff.2 hne
  have hstop := (Fork.onward_parseModule ts names).stop (ts.size - 1) hT.tagAt (Nat.zero_le _)
  rw [h.cursor] at hstop
  omega

/-- A strict parse succeeds or fails somewhere. -/
theorem parses_or_failsAt (hT : ts.EndsInEof) (names : Interner) :
    Parses ts names ∨ ∃ e i, FailsAt ts names e i := by
  obtain ⟨output, names', -, -, -, hfails⟩ := strict_eq_lenient_to_first_error names hT
  cases hparse : parse ts names .strict with
  | mk result names'' =>
    cases result with
    | ok o => exact .inl ⟨o, names'', hparse⟩
    | error f =>
      obtain ⟨e, rfl, -⟩ := hfails f names'' hparse
      exact .inr ⟨e, _, ⟨names'', hparse⟩, rfl⟩

/-- A fat arrow is not expected behind a square bracket. -/
theorem FailsAt.common (h : FailsAt ts names e i) {g : Tag} (hg : e.expected.contains g = true) : Common ts i g := by
  rintro rfl j hj hbracket
  have hmisses := Fork.parseModule_misses (p := ⟨ts, i, .fatArrow⟩) (.inr ⟨rfl, j, hj, hbracket⟩) rfl names
  have hnot : e.expected.contains .fatArrow = false := hmisses e h.mem_errors h.cursor
  rw [hg] at hnot
  cases hnot

end Fails

/-- A token list parses, or fails past an index, or is refused for the tag that it has there, where another list has
another one. -/
def Accepts (ts : TokenList) (i : Nat) (g : Tag) (us : TokenList) (names : Interner) : Prop :=
  Parses us names ∨ ∃ e j, FailsAt us names e j ∧ (i < j ∨ Refused ts i g e j)

/-- What an error expects at the index, the right list may have there. -/
theorem Fork.accepts {w : Fork} {names names' : Interner} {e : SyntaxError} (h : FailsAt w.left names e w.index)
    (hright : w.right.EndsInEof) (hexpected : e.expected.contains w.tag = true) :
    Accepts w.left w.index w.tag w.right names' := by
  obtain hmisses | hsucceeds := w.parseModule_meets names names'
  · have hnot : e.expected.contains w.tag = false := hmisses e h.mem_errors h.cursor
    rw [hexpected] at hnot
    cases hnot
  · obtain hparses | ⟨e', j, hfails⟩ := parses_or_failsAt hright names'
    · exact .inl hparses
    · refine .inr ⟨e', j, hfails, ?_⟩
      have hplace := hsucceeds e' hfails.mem_errors
      rwa [hfails.cursor] at hplace

variable {ts : TokenList} {names : Interner} {e : SyntaxError} {i : Nat}

/-- **What an error expects is accepted.**  Let a strict parse fail at an index.  For each tag that was expected some
tokens go on from there, first one with this tag, so that the parse succeeds, gets past the index or refuses this tag.
What was found is not expected, but for what only stands before a visibility, right behind one. -/
theorem expected_accepted (hT : ts.EndsInEof) (h : FailsAt ts names e i) :
    (∀ g, e.expected.contains g = true →
      ∃ us : TokenList, us.EndsInEof ∧ (∀ j < i, us.get? j = ts.get? j) ∧ us.tagAt i = g ∧
        ∀ names', Accepts ts i g us names') ∧
    (e.expected.contains (ts.tagAt i) = true →
      e.Says .expectedDeclaration (ts.tagAt i) ∧ beforeVisibility.contains (ts.tagAt i) = true ∧
        ∃ j, j + 1 = i ∧ (ts.tagAt j).isVisibility = true) := by
  refine ⟨fun g hg => ?_, fun hfound => ?_⟩
  · obtain ⟨w, rfl, rfl, rfl, hright⟩ := Fork.exists_fork hT (h.lt_size hT) (h.common hg)
    exact ⟨w.right, hright, w.same, rfl, fun names' => Fork.accepts h hright hg⟩
  · -- the same list on both sides
    have haccepts : Accepts ts i (ts.tagAt i) ts names :=
      Fork.accepts (w := .refl ts i (h.lt_size hT)) h hT hfound
    obtain ⟨output, n, hparses⟩ | ⟨e', j, hfails, hplace⟩ := haccepts
    · obtain ⟨n', hparse⟩ := h.fails
      rw [hparse] at hparses
      cases hparses
    · have he : e' = e := by
        obtain ⟨n, hparse⟩ := h.fails
        obtain ⟨n', hparse'⟩ := hfails.fails
        rw [hparse] at hparse'
        cases hparse'
        rfl
      have hj : j = i := hfails.cursor.symm.trans h.cursor
      subst he hj
      obtain hlt | hrefused := hplace
      · exact absurd hlt (Nat.lt_irrefl _)
      · cases hrefused with
        | visibility _ hsaid hj hvisibility hbefore => exact ⟨hsaid, hbefore, _, hj, hvisibility⟩
        | openIf _ _ htag hne => exact absurd htag hne
        | noParam _ _ _ _ htag hne => exact absurd htag hne
        | quote hlt => exact absurd hlt (Nat.lt_irrefl _)

/-- A strict parse fails at an index if evaluation says so. -/
theorem exists_failsAt {p : SyntaxError → Bool}
    (hparse : (match (parse ts names .strict).1 with | .error (.error e) => p e | _ => false) = true)
    (hcursor : (parseModule .strict (.start ts names)).state.cursor.position = i) :
    ∃ e, FailsAt ts names e i ∧ p e = true := by
  cases hrun : parse ts names .strict with
  | mk result names' =>
    rw [hrun] at hparse
    match result, hparse with
    | .error (.error e), hp => exact ⟨e, ⟨⟨names', hrun⟩, hcursor⟩, hp⟩

/-- `f = x then` fails at the `then`, where `is` was expected and can stand. -/
theorem then_behind_value :
    let tokens := TokenList.ofTokens [⟨.ident ⟨1⟩, ⟨0, 1⟩, ⟨1, 1⟩⟩, ⟨.eq, ⟨2, 3⟩, ⟨1, 3⟩⟩,
      ⟨.ident ⟨2⟩, ⟨4, 5⟩, ⟨1, 5⟩⟩,
      ⟨.kwThen, ⟨6, 10⟩, ⟨1, 7⟩⟩, ⟨.eof, ⟨10, 10⟩, ⟨1, 11⟩⟩]
    ∃ e, tokens.EndsInEof ∧ FailsAt tokens .new e 3 ∧ e.expected.contains .kwIs = true ∧
      ∃ us : TokenList, us.EndsInEof ∧ (∀ j < 3, us.get? j = tokens.get? j) ∧ us.tagAt 3 = .kwIs ∧
        ∀ names', Accepts tokens 3 .kwIs us names' := by
  intro tokens
  have hT : tokens.EndsInEof := ⟨_, rfl, rfl⟩
  obtain ⟨e, hfails, hexpected⟩ : ∃ e, FailsAt tokens .new e 3 ∧ e.expected.contains .kwIs = true :=
    exists_failsAt (by decide +kernel) (by decide +kernel)
  exact ⟨e, hT, hfails, hexpected, (expected_accepted hT hfails).1 .kwIs hexpected⟩

/-- Of two visibilities the second is found where it is said to be expected. -/
theorem second_visibility_expected :
    ∃ tokens names e, lex "public public x" .new = (.ok tokens, names) ∧ tokens.EndsInEof ∧
      FailsAt tokens names e 1 ∧ e.expected.contains (tokens.tagAt 1) = true := by
  have decided : (match lex "public public x" .new with
      | (.ok tokens, names) =>
        (match (parse tokens names .strict).1 with
          | .error (.error e) => e.expected.contains (tokens.tagAt 1)
          | _ => false) && (parseModule .strict (.start tokens names)).state.cursor.position == 1
      | _ => false) = true := by
    decide +kernel
  cases hlex : lex "public public x" .new with
  | mk result names =>
    rw [hlex] at decided
    cases result with
    | error failure => cases decided
    | ok tokens =>
      obtain ⟨hparse, hcursor⟩ := Bool.and_eq_true_iff.1 decided
      obtain ⟨e, hfails, hexpected⟩ := exists_failsAt hparse (eq_of_beq hcursor)
      exact ⟨tokens, names, e, rfl, endsInEof_of_lex hlex, hfails, hexpected⟩

end SolSyntax
