import SolSyntax.Proofs.Recovery

/-!
# The first error

Up to the first error a strict and a lenient parse make the same passes, because no reader knows which
of the two it serves.  What a lenient parse does after its first error leaves that error alone: the
errors it took down only grow at their end.

Principal result: `strict_eq_lenient_to_first_error` — a strict parse gives what a lenient one gives, or the
first of its errors.
-/

namespace SolSyntax

open Grammar

section Passes

variable {r : Rules} {tags : Array Nat} {s t : State} {ps : List Pass}

theorem errorsIn_cons_read {i j : Nat} {d : Decl} :
    errorsIn (⟨i, j, .read d⟩ :: ps) = errorsIn ps := rfl

theorem readIn_cons_read {i j : Nat} {d : Decl} :
    readIn (⟨i, j, .read d⟩ :: ps) = d :: readIn ps := rfl

theorem errorsIn_cons_resumed {i j k : Nat} {e : SyntaxError} :
    errorsIn (⟨i, j, .resumed e k⟩ :: ps) = e :: errorsIn ps := rfl

/-- Passes without an error are those of a strict parse. -/
theorem Passes.parseDecls_strict_eq (h : Passes r tags s ps t) (herr : errorsIn ps = [])
    (hashBang : Option Name) {n : Nat} (hn : ps.length ≤ n) (decls : List Decl) :
    parseDecls .strict r tags hashBang n decls [] s =
      .finish hashBang ((readIn ps).reverse ++ decls) [] t false := by
  induction h generalizing n decls with
  | ended hend =>
    obtain _ | n := n
    · cases hn
    rw [parseDecls_end hend]
    rfl
  | next hp _ ih =>
    obtain _ | n := n
    · cases hn
    cases hp with
    | read hend hd =>
      rw [parseDecls_ok hend hd, ih herr (Nat.le_of_succ_le_succ hn), readIn_cons_read,
        List.reverse_cons, List.append_assoc]
      rfl
    | resumed hend hd => cases herr

/-- A strict parse ends at the first error of the passes. -/
theorem Passes.parseDecls_strict_first (h : Passes r tags s ps t) {e : SyntaxError}
    {es : List SyntaxError} (herr : errorsIn ps = e :: es) (hashBang : Option Name) {n : Nat}
    (hn : ps.length ≤ n) (decls : List Decl) :
    ∃ ds s', parseDecls .strict r tags hashBang n decls [] s = .finish hashBang ds [e] s' false := by
  induction h generalizing n decls with
  | ended => cases herr
  | next hp _ ih =>
    obtain _ | n := n
    · cases hn
    cases hp with
    | read hend hd =>
      rw [parseDecls_ok hend hd]
      exact ih herr (Nat.le_of_succ_le_succ hn) _
    | @resumed e' s' hend hd =>
      rw [errorsIn_cons_resumed, List.cons.injEq] at herr
      exact ⟨decls, s', by rw [parseDecls_strict_error hend hd, herr.1]⟩

end Passes

section Parse

variable {tokens : TokenList} {names : Interner} {ps : List Pass} {t : State}

/-- Without an error a strict parse gives what a lenient one gives. -/
theorem Passes.parse_strict_eq
    (h : Passes (rules (tokens.size + 1)) tokens.tagIndices (takeHashBang (.start tokens names)).2 ps t)
    (hlen : ps.length ≤ tokens.size + 1) (herr : errorsIn ps = []) :
    parse tokens names .strict =
      (.ok ⟨⟨(takeHashBang (.start tokens names)).1, readIn ps⟩, t.arena, errorsIn ps⟩, t.names) := by
  unfold parse
  rw [parseModule_eq, h.parseDecls_strict_eq herr _ hlen]
  simp [ModuleRun.finish, herr]

/-- With errors a strict parse gives the first of them. -/
theorem Passes.parse_strict_first
    (h : Passes (rules (tokens.size + 1)) tokens.tagIndices (takeHashBang (.start tokens names)).2 ps t)
    (hlen : ps.length ≤ tokens.size + 1) {e : SyntaxError} {es : List SyntaxError}
    (herr : errorsIn ps = e :: es) :
    ∃ names', parse tokens names .strict = (.error (.error e), names') := by
  obtain ⟨ds, s', hrun⟩ := h.parseDecls_strict_first herr (takeHashBang (.start tokens names)).1 hlen []
  refine ⟨s'.names, ?_⟩
  unfold parse
  rw [parseModule_eq, hrun]
  simp [ModuleRun.finish]

/-- **A strict and a lenient parse agree up to the first error.**  Of tokens that end in `eof` a lenient
parse gives an output.  A strict parse succeeds just if that has no errors, then with the same output and
names; and it fails just with the first of them. -/
theorem strict_eq_lenient_to_first_error (names : Interner) (hT : tokens.EndsInEof) :
    ∃ output names', parse tokens names .lenient = (.ok output, names') ∧
      ((∃ o n, parse tokens names .strict = (.ok o, n)) ↔ output.errors = []) ∧
      (∀ o n, parse tokens names .strict = (.ok o, n) → o = output ∧ n = names') ∧
      (∀ f n, parse tokens names .strict = (.error f, n) →
        ∃ e, f = .error e ∧ output.errors.head? = some e) := by
  obtain ⟨ps, t, hps, hlen⟩ := exists_passes_start names hT
  refine ⟨_, _, hps.parse_eq hlen, ?_⟩
  cases herr : errorsIn ps with
  | nil =>
    have hstrict := hps.parse_strict_eq hlen herr
    rw [herr] at hstrict
    rw [hstrict]
    refine ⟨⟨fun _ => rfl, fun _ => ⟨_, _, rfl⟩⟩, ?_, ?_⟩
    · rintro o n ⟨⟩
      exact ⟨rfl, rfl⟩
    · rintro f n ⟨⟩
  | cons e es =>
    obtain ⟨n, hstrict⟩ := hps.parse_strict_first hlen herr
    rw [hstrict]
    refine ⟨⟨?_, fun h => by cases h⟩, ?_, ?_⟩
    · rintro ⟨o, n, ⟨⟩⟩
    · rintro o n ⟨⟩
    · rintro f n ⟨⟩
      exact ⟨e, rfl, rfl⟩

/-- Two lines with an error each: a strict parse fails with the first. -/
theorem two_errors_to_first_error :
    let tokens := TokenList.ofList [⟨.rparen, .dummy, .first⟩, ⟨.newline, .dummy, .first⟩,
      ⟨.kwThen, .dummy, .first⟩]
    tokens.EndsInEof ∧
      ∃ output names', parse tokens .new .lenient = (.ok output, names') ∧
        ((∃ o n, parse tokens .new .strict = (.ok o, n)) ↔ output.errors = []) ∧
        (∀ o n, parse tokens .new .strict = (.ok o, n) → o = output ∧ n = names') ∧
        (∀ f n, parse tokens .new .strict = (.error f, n) →
          ∃ e, f = .error e ∧ output.errors.head? = some e) := by
  intro tokens
  have hend : tokens.EndsInEof := ⟨_, rfl, rfl⟩
  exact ⟨hend, strict_eq_lenient_to_first_error .new hend⟩

end Parse

end SolSyntax
