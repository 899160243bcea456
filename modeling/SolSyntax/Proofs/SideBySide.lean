import SolSyntax.Proofs.Edges
import SolSyntax.Proofs.Recovery

/-!
# A module inside another one

A strict parse of some tokens beside a lenient parse of more tokens: as long as the strict one finds
no error the loops of both make the same passes.

Principal results: `Passes.beside` — the passes over tokens that parse strictly.
-/

namespace SolSyntax

open Grammar

variable {w : Window} {m m' n : Nat} {tags tags' : Array Nat} {hashBang : Option Name}
  {decls : List Decl} {s t f : State} {v : List Token} {ps : List Pass}

/-- The passes of the loop do not depend on line breaks before them. -/
theorem Passes.of_skipped_eq {s s' : State} (h : skipped s = skipped s') {r : Rules}
    (hp : Passes r tags s ps f) :
    ∃ ps', Passes r tags s' ps' f ∧ readIn ps' = readIn ps ∧ errorsIn ps' = errorsIn ps := by
  cases hp with
  | ended hend =>
    rw [h] at hend ⊢
    exact ⟨_, .ended hend, rfl, rfl⟩
  | next hp hps =>
    cases hp with
    | read hend hd =>
      rw [h] at hend hd
      exact ⟨_, .next (.read hend hd) hps, rfl, rfl⟩
    | resumed hend hd =>
      rw [h] at hend hd hps
      exact ⟨_, .next (.resumed hend hd) hps, rfl, rfl⟩

/-- Both runs take the same `#!` line. -/
theorem takeHashBang_beside {l r v : List Token} {s t : State} (hl : headTag l ≠ .hashBang)
    (hr : headTag r ≠ .hashBang) (hs : s.cursor.rest = v ++ l) (ht : t.cursor.rest = v ++ r) :
    ∃ x v' s' t' text, v = x ++ v' ∧ takeHashBang s = (text, s') ∧ takeHashBang t = (text, t') ∧
      Moved x.length s s' ∧ Moved x.length t t' := by
  by_cases h : headTag v = .hashBang
  · obtain ⟨tok, u, text, rfl, hk⟩ := exists_of_headTag_hashBang h
    obtain ⟨s', hs', ms⟩ := takeHashBang_cons hs hk
    obtain ⟨t', ht', mt⟩ := takeHashBang_cons ht hk
    exact ⟨[tok], u, s', t', some text, rfl, hs', ht', ms, mt⟩
  · have head : ∀ {x : List Token}, headTag x ≠ .hashBang → headTag (v ++ x) ≠ .hashBang := by
      intro x hx
      by_cases hv : v = []
      · rw [hv]
        exact hx
      · rwa [headTag_append hv]
    exact ⟨[], v, s, t, none, rfl, takeHashBang_eq (by rw [hs]; exact head hl),
      takeHashBang_eq (by rw [ht]; exact head hr), .refl s, .refl t⟩

/-- Tokens without an end are line breaks if the loop would end in them. -/
theorem allBreaks_of_stop (h : skipBreaks v = [] ∨ headTag (skipBreaks v) = .eof)
    (hv : ∀ t ∈ v, t.tag ≠ .eof) : AllBreaks v := by
  have hnil : skipBreaks v = [] := by
    rcases h with h | h
    · exact h
    · cases hs : skipBreaks v with
      | nil => rfl
      | cons tok r =>
        have hmem : tok ∈ v := (List.dropWhile_suffix _).subset (hs ▸ List.mem_cons_self)
        rw [hs, headTag_cons] at h
        exact absurd h (hv tok hmem)
  have hsplit : v.takeWhile (·.tag == .newline) ++ skipBreaks v = v := List.takeWhile_append_dropWhile
  rw [hnil, List.append_nil] at hsplit
  rw [← hsplit]
  exact allBreaks_takeWhile v

/-- The state behind some of the line breaks that the loop skips. -/
theorem exists_past_breaks {x r : List Token} (hx : AllBreaks x) (hs : s.cursor.rest = x ++ r) :
    ∃ s', Moved x.length s s' ∧ s'.cursor.rest = r ∧ skipped s' = skipped s := by
  let s' : State := { s with cursor := { s.cursor with position := s.cursor.position + x.length } }
  have moved : Moved x.length s s' := ⟨rfl, rfl, rfl, rfl⟩
  have hrest : s'.cursor.rest = r := by
    rw [moved.rest, hs, List.drop_left]
  have htake : s.cursor.rest.takeWhile (·.tag == .newline) =
      x ++ s'.cursor.rest.takeWhile (·.tag == .newline) := by
    rw [hs, hrest]
    exact List.takeWhile_append_of_pos fun t ht => by simp [hx t ht]
  have hposition : (skipped s').cursor.position = (skipped s).cursor.position := by
    rw [(skipped_moved s').position, (skipped_moved s).position, htake, List.length_append, moved.position,
      Nat.add_assoc]
  refine ⟨s', moved, hrest, ?_⟩
  show ({ s with cursor := { s.cursor with position := (skipped s').cursor.position } } : State) = skipped s
  rw [hposition]
  rfl

/-- Both loops skip the same line breaks, if something comes after these. -/
theorem Grammar.Aligned.skipped (al : Aligned w 0 v s t) (hne : skipBreaks v ≠ []) :
    Aligned w 0 (skipBreaks v) (skipped s) (skipped t) := by
  have hsplit : v = v.takeWhile (·.tag == .newline) ++ skipBreaks v :=
    List.takeWhile_append_dropWhile.symm
  have htake : ∀ r, (v ++ r).takeWhile (·.tag == .newline) = v.takeWhile (·.tag == .newline) :=
    fun r => takeWhile_append_of_ne (.inl hne)
  have hs := skipped_moved s
  have ht := skipped_moved t
  rw [al.left, htake] at hs
  rw [al.right, htake] at ht
  have al' := al
  rw [hsplit] at al'
  exact al'.step hs ht (allBreaks_takeWhile v).nested.closes.1

/-- Where nothing is left for the left run, only line breaks are left of the common tokens, or an end
comes next. -/
theorem Grammar.Aligned.skipBreaks_of_isAtEnd (al : Aligned w 0 v s t)
    (hend : (Grammar.skipped s).cursor.isAtEnd = true) : skipBreaks v = [] ∨ headTag (skipBreaks v) = .eof := by
  by_cases hv : skipBreaks v = []
  · exact .inl hv
  · rw [isAtEnd_eq, (al.skipped hv).left, headTag_append hv] at hend
    exact .inr (eq_of_beq hend)

/-- If the left list goes on after line breaks, so do the common tokens. -/
theorem Grammar.Aligned.skipBreaks_ne_nil (hw : headTag w.left = .eof) (al : Aligned w 0 v s t)
    (hend : (Grammar.skipped s).cursor.isAtEnd = false) : skipBreaks v ≠ [] := by
  intro hv
  have hleft : skipBreaks w.left = w.left := by
    cases hl : w.left with
    | nil => rfl
    | cons tok r =>
      rw [hl, headTag_cons] at hw
      rw [skipBreaks, List.dropWhile_cons, hw]
      rfl
  rw [isAtEnd_eq, rest_skipped, al.left, skipBreaks, dropWhile_append_of_eq_nil hv] at hend
  rw [show w.left.dropWhile (·.tag == .newline) = w.left from hleft, hw] at hend
  cases hend

/-- What a strict parse of some tokens and a lenient parse of more tokens have in common: both have read
`u`, and the lenient one stands before `v` and what the window says. -/
structure Beside (w : Window) (r : Rules) (tags : Array Nat) (s t f : State) (run : ModuleRun)
    (decls : List Decl) (ps : List Pass) (u v : List Token) (t' : State) (ps' : List Pass)
    (ds ds' : List Decl) (os : List (Outline TokenKind)) : Prop where
  derives : Derives .decls u os
  decls : run.module.decls = decls.reverse ++ ds
  left : Grew s run.state (ds.map Decl.view) os
  read : readIn ps = ds' ++ readIn ps'
  errors : errorsIn ps = errorsIn ps'
  right : Grew t t' (ds'.map Decl.view) os
  passes : Passes r tags t' ps' f
  tokens : t'.cursor.tokens = t.cursor.tokens
  rest : t'.cursor.rest = v ++ w.right

/-- A declaration that the left run reads is read by the right run as well. -/
theorem Grammar.Aligned.declLine_ok (hw : headTag w.left = .eof) (hw' : w.pointed = false)
    (al : Aligned w 0 v s t) (hm : v.length ≤ m) (hm' : v.length ≤ m') {d : Decl} {s' : State}
    (hd : declLine (rules m) s = .ok d s') :
    ∃ d' t' u v' o, declLine (rules m') t = .ok d' t' ∧ Same w d d' ∧ v = u ++ v' ∧
      Derives .decl u [o] ∧ (headTag v' = .newline ∨ headTag v' = .eof) ∧
      Both w s t 0 v' s' t' [d.view] [d'.view] [o] := by
  have meets := declLine_agrees (rules_agree (w := w) hm hm') al (Nat.lt_succ_self _)
  rw [hd] at meets
  obtain ⟨d', t', hd', hsame, u, v', o, hsplit, hD, hstop, b⟩ := meets.ok_of_left hw hw'
  exact ⟨d', t', u, v', o, hd', hsame, hsplit, hD, hstop, b⟩

/-- Neither run is at its end if the other is not. -/
theorem Grammar.Aligned.isAtEnd_eq {d : Nat} (al : Aligned w d v s t) (hv : v ≠ []) :
    t.cursor.isAtEnd = s.cursor.isAtEnd := by
  rw [Grammar.isAtEnd_eq, Grammar.isAtEnd_eq, al.left, al.right, headTag_append hv, headTag_append hv]

/-- In a lenient parse that is the next pass. -/
theorem Passes.read_beside (hw : headTag w.left = .eof) (hw' : w.pointed = false)
    (al : Aligned w 0 v (skipped s) (skipped t))
    (hv : v ≠ []) (hend : (skipped s).cursor.isAtEnd = false) (hm : v.length ≤ m) (hm' : v.length ≤ m')
    {d : Decl} {s' : State} (hd : declLine (rules m) (skipped s) = .ok d s')
    (hp : Passes (rules m') tags' t ps f) :
    ∃ d' t' p ps' u v' o, v = u ++ v' ∧ Derives .decl u [o] ∧
      (headTag v' = .newline ∨ headTag v' = .eof) ∧ ps = p :: ps' ∧ p.outcome = .read d' ∧
      Passes (rules m') tags' t' ps' f ∧ t'.cursor.tokens = t.cursor.tokens ∧
      Both w (skipped s) (skipped t) 0 v' s' t' [d.view] [d'.view] [o] := by
  obtain ⟨d', t', u, v', o, hr, -, hsplit, hD, hstop, b⟩ := al.declLine_ok hw hw' hm hm' hd
  obtain ⟨ps', rfl, hps⟩ := hp.eq_read ((al.isAtEnd_eq hv).trans hend) hr
  have onward := Forward.onward (p := declLine (rules m')) (skipped t)
  rw [hr] at onward
  exact ⟨_, _, _, _, u, v', o, hsplit, hD, hstop, rfl, rfl, hps, onward.cursor.tokens, b⟩

/-- Over tokens that parse strictly a lenient parse makes the same passes. -/
theorem Passes.beside (hw : headTag w.left = .eof) (hw' : w.pointed = false) {run : ModuleRun}
    (hex : run.exhausted = false) (herr : run.errors = [])
    (hrun : parseDecls .strict (rules m) tags hashBang n decls [] s = run) (al : Aligned w 0 v s t)
    (hm : v.length ≤ m) (hm' : v.length ≤ m') (hp : Passes (rules m') tags' t ps f) :
    ∃ u v' t' ps' ds ds' os, v = u ++ v' ∧ (skipBreaks v' = [] ∨ headTag (skipBreaks v') = .eof) ∧
      Beside w (rules m') tags' s t f run decls ps u v' t' ps' ds ds' os := by
  induction n generalizing decls s t v ps with
  | zero =>
    subst hrun
    cases hex
  | succ n ih =>
    have start : Grew s (skipped s) [] [] := (Grew.refl s).move rfl rfl
    have start' : Grew t (skipped t) [] [] := (Grew.refl t).move rfl rfl
    cases hend : (skipped s).cursor.isAtEnd with
    | true =>
      rw [parseDecls_end hend] at hrun
      subst hrun
      exact ⟨[], v, t, ps, [], [], [], rfl, al.skipBreaks_of_isAtEnd hend,
        ⟨.declsNil .nil, by simp [ModuleRun.finish], start, rfl, rfl, .refl t, hp, rfl, al.right⟩⟩
    | false =>
      have hv := al.skipBreaks_ne_nil hw hend
      have hle : (skipBreaks v).length ≤ v.length := (List.dropWhile_suffix _).length_le
      obtain ⟨d, s', hd⟩ := exists_of_parseDecls_strict hrun hex herr hend
      rw [parseDecls_ok hend hd] at hrun
      obtain ⟨d', t₁, p, ps₁, u₁, v₁, o, hsplit, hD, hend₁, rfl, hread, hps, htokens, b⟩ :=
        hp.read_beside hw hw' (al.skipped hv) hv hend (by omega) (by omega) hd
      have hlen := congrArg List.length hsplit
      rw [List.length_append] at hlen
      obtain ⟨u, v', t', ps', ds, ds', os, rfl, hstop, beside⟩ :=
        ih hrun b.aligned (by omega) (by omega) hps
      have hv' : v = v.takeWhile (·.tag == .newline) ++ skipBreaks v :=
        List.takeWhile_append_dropWhile.symm
      refine ⟨v.takeWhile (·.tag == .newline) ++ u₁ ++ u, v', t', ps', d :: ds, d' :: ds', o :: os,
        ?_, hstop, ?_⟩
      · rw [hsplit] at hv'
        rw [List.append_assoc, List.append_assoc]
        exact hv'
      · exact {
          derives := .declsCons (allBreaks_takeWhile v) (beside.derives.headTag_decls hend₁) hD
            beside.derives
          decls := by rw [beside.decls, List.reverse_cons, List.append_assoc]; rfl
          left := start.trans (b.left.trans beside.left)
          read := by
            rw [readIn, List.filterMap_cons, hread]
            exact congrArg (d' :: ·) beside.read
          errors := by
            rw [errorsIn, List.filterMap_cons, hread]
            exact beside.errors
          right := start'.trans (b.right.trans beside.right)
          passes := beside.passes
          tokens := beside.tokens.trans htokens
          rest := beside.rest }

end SolSyntax
