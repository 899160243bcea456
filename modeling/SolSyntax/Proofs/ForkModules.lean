import SolSyntax.Proofs.FirstError
import SolSyntax.Proofs.ForkDecls

/-!
# Modules on two token lists

Strict parses of the two lists of a `Fork` read the same declarations up to the index.  The left one may
fail there and say what it wanted; the right one, which has a token of that kind there, gets past the index
or is refused.

Principal results: `parseDecls_meets` — how two loops over declarations end; `parseModule_meets` — how two
parses end; `parseModule_misses` — a fat arrow behind a square bracket is asked for in no parse.
-/

namespace SolSyntax

open Grammar Parse

/-! ## A single loop -/

section Loop

variable {r : Rules} [r.Forward] {tags : Array Nat} {hashBang : Option Name} {decls : List Decl} {s : State}

theorem onward_skipped (s : State) : s.cursor.Onward (skipped s).cursor := s.cursor.onward_skip rfl

/-- A strict loop moves forward from behind the line breaks. -/
theorem skipped_onward_parseDecls (n : Nat) (decls : List Decl) (s : State) :
    (skipped s).cursor.Onward (parseDecls .strict r tags hashBang (n + 1) decls [] s).state.cursor := by
  induction n using Nat.strongRecOn generalizing decls s with
  | ind n ih =>
    cases hend : (skipped s).cursor.isAtEnd with
    | true =>
      rw [parseDecls_end hend]
      exact .refl _
    | false =>
      have onward := Forward.onward (p := declLine r) (skipped s)
      cases hd : declLine r (skipped s) with
      | ok d s' =>
        rw [hd] at onward
        rw [parseDecls_ok hend hd]
        refine onward.cursor.trans ?_
        cases n with
        | zero => exact .refl _
        | succ n => exact (onward_skipped s').trans (ih n (Nat.lt_succ_self n) _ s')
      | error e s' =>
        rw [hd] at onward
        cases e with
        | error e =>
          rw [parseDecls_strict_error hend hd]
          exact onward.cursor
        | exhausted =>
          rw [parseDecls_exhausted hend hd]
          exact onward.cursor

theorem skipped_le_parseDecls (n : Nat) (decls : List Decl) (s : State) :
    (skipped s).cursor.position ≤
      (parseDecls .strict r tags hashBang (n + 1) decls [] s).state.cursor.position :=
  (skipped_onward_parseDecls n decls s).position

/-- If the run ends with an error, it is past the index. -/
def ModuleRun.Past (i : Nat) (run : ModuleRun) : Prop := ∀ e ∈ run.errors, i < run.state.cursor.position

theorem parseDecls_past {i : Nat} (h : i < s.cursor.position) (n : Nat) :
    (parseDecls .strict r tags hashBang n decls [] s).Past i := by
  cases n with
  | zero => exact nofun
  | succ n =>
    exact fun _ _ => Nat.lt_of_lt_of_le h (Nat.le_trans (onward_skipped s).position (skipped_le_parseDecls n decls s))

/-- A loop that goes on at the end of a line gets past it, or ends without an error. -/
theorem parseDecls_stop (h : Fork.lineStops.contains s.cursor.currentTag = true) (n : Nat) :
    (parseDecls .strict r tags hashBang n decls [] s).Past s.cursor.position := by
  cases n with
  | zero => exact nofun
  | succ n =>
    cases hend : (skipped s).cursor.isAtEnd with
    | true =>
      rw [parseDecls_end hend]
      exact nofun
    | false =>
      refine fun _ _ => Nat.lt_of_lt_of_le ?_ (skipped_le_parseDecls n decls s)
      -- what comes next is a line break, or nothing would be left
      refine Nat.lt_of_le_of_ne (onward_skipped s).position fun heq => ?_
      have htag : (skipped s).cursor.currentTag = s.cursor.currentTag := by
        rw [Cursor.currentTag, Cursor.currentTag, ← heq]
        rfl
      obtain ⟨-, -, -, hhead⟩ := skipped_rest s
      rw [← Cursor.currentTag_eq, htag] at hhead
      rw [Cursor.isAtEnd, Cursor.isAt, htag] at hend
      revert h hhead hend
      cases s.cursor.currentTag <;> decide

end Loop

/-! ## A tag that is asked for nowhere -/

/-- A run does not end at the index with an error that asks for the tag. -/
def Grammar.Spot.Misses (p : Spot) (run : ModuleRun) : Prop :=
  ∀ e ∈ run.errors, run.state.cursor.position = p.index → e.expected.contains p.tag = false

namespace Grammar.Spot

variable {p : Spot} {r : Rules} {s : State}

theorem Misses.of_past {run : ModuleRun} (h : run.Past p.index) : p.Misses run :=
  fun e he heq => absurd heq (Nat.ne_of_gt (h e he))

/-- The end of a line is no fat arrow. -/
theorem Rests.lineEnd (h : p.Rests none s) (htag : p.tag = .fatArrow) : p.Hushed (Grammar.lineEnd s) := by
  have lacks {tag : Tag} (hstop : Fork.lineStops.contains tag = true) : (TagSet.single tag).contains p.tag = false := by
    rw [TagSet.contains_single, htag]
    revert hstop
    cases tag <;> decide
  have missed : p.Rests none (s.noted (.single .newline)) := h.note fun _ => lacks rfl
  unfold Grammar.lineEnd
  cases hbreak : (TagSet.single .newline).contains s.cursor.currentTag with
  | true =>
    rw [check_eq_checkSet, bind_of_ok (checkSet_of_mem hbreak)]
    exact ⟨h.probed, h.fresh⟩
  | false =>
    rw [check_eq_checkSet, bind_of_ok (checkSet_of_not_mem hbreak), if_neg Bool.false_ne_true, check_eq_checkSet]
    cases hend : (TagSet.single .eof).contains (s.noted (.single .newline)).cursor.currentTag with
    | true =>
      rw [bind_of_ok (checkSet_of_mem hend)]
      exact ⟨missed.probed, missed.fresh⟩
    | false =>
      rw [bind_of_ok (checkSet_of_not_mem hend)]
      exact (missed.note fun _ => lacks rfl).fresh

theorem Rests.declLine [r.Calm p] (h : p.Rests none s) (htag : p.tag = .fatArrow) :
    p.Hushed (Grammar.declLine r s) := by
  have calm : CalmFrom p [] (decl r) s := Calm.calm s
  unfold Grammar.declLine
  cases hd : decl r s with
  | ok d s' =>
    have hushed := (calm.rests h nofun hd).lineEnd htag
    rw [bind_of_ok hd]
    cases hend : Grammar.lineEnd s' with
    | ok _ _ =>
      rw [hend] at hushed
      rwa [bind_of_ok hend]
    | error e _ =>
      rw [hend] at hushed
      rw [bind_of_error hend]
      cases e <;> exact hushed
  | error e s' =>
    have hushed := calm.hushed none h nofun
    rw [hd] at hushed
    rw [bind_of_error hd]
    cases e <;> exact hushed

theorem Rests.parseDecls [r.Forward] [r.Calm p] {tags : Array Nat} {hashBang : Option Name} (h : p.Rests none s)
    (htag : p.tag = .fatArrow) (n : Nat) (decls : List Decl) :
    p.Misses (SolSyntax.parseDecls .strict r tags hashBang n decls [] s) := by
  induction n generalizing s decls with
  | zero => exact nofun
  | succ n ih =>
    have calm : CalmFrom p [] skipNewlines s := Calm.calm s
    have rests : p.Rests none (skipped s) := calm.rests h nofun rfl
    cases hend : (skipped s).cursor.isAtEnd with
    | true =>
      rw [parseDecls_end hend]
      exact nofun
    | false =>
      have hushed := rests.declLine (r := r) htag
      have onward := Forward.onward (p := Grammar.declLine r) (skipped s)
      cases hd : Grammar.declLine r (skipped s) with
      | ok d s' =>
        rw [hd] at hushed onward
        rw [parseDecls_ok hend hd]
        exact ih ⟨onward.cursor.tokens.trans rests.tokens, hushed.1, rests.level, hushed.2⟩ _
      | error e s' =>
        cases e with
        | error e =>
          rw [hd] at hushed
          rw [parseDecls_strict_error hend hd]
          exact fun _ he => List.mem_singleton.1 he ▸ hushed
        | exhausted =>
          rw [parseDecls_exhausted hend hd]
          exact nofun

end Grammar.Spot

namespace Fork

/-! ## Two loops -/

/-- The right run ends without an error, or past the index, or is refused. -/
def Succeeds (w : Fork) (run : ModuleRun) : Prop :=
  ∀ e ∈ run.errors, w.index < run.state.cursor.position ∨ w.Refuses e run.state.cursor.position

variable {w : Fork} {s t : State} {run : ModuleRun}

theorem Succeeds.of_past (h : run.Past w.index) : w.Succeeds run := fun e he => .inl (h e he)

section Loops

variable {r r' : Rules} [r.Forward] [r'.Forward] {tags tags' : Array Nat} {hashBang hashBang' : Option Name}

/-- What is true of all errors past an index and of that of the next declaration is true of the error that
a loop ends with, if that declaration gets past the index. -/
theorem forall_errors_parseDecls {E : SyntaxError → State → Prop} {i : Nat}
    (hpast : ∀ e s, i < s.cursor.position → E e s) (hend : (skipped s).cursor.isAtEnd = false)
    (hok : ∀ d s', declLine r (skipped s) = .ok d s' → i < s'.cursor.position)
    (herror : ∀ e s', declLine r (skipped s) = .error (.error e) s' → E e s') (n : Nat) (decls : List Decl) :
    ∀ e ∈ (parseDecls .strict r tags hashBang (n + 1) decls [] s).errors,
      E e (parseDecls .strict r tags hashBang (n + 1) decls [] s).state := by
  cases hd : declLine r (skipped s) with
  | ok d s' =>
    rw [parseDecls_ok hend hd]
    exact fun e he => hpast e _ (parseDecls_past (hok d s' hd) n e he)
  | error f s' =>
    cases f with
    | error e =>
      rw [parseDecls_strict_error hend hd]
      exact fun _ he => List.mem_singleton.1 he ▸ herror e s' hd
    | exhausted =>
      rw [parseDecls_exhausted hend hd]
      exact nofun

theorem Quits.misses (hend : (skipped s).cursor.isAtEnd = false) (h : w.Quits (declLine r (skipped s))) (n : Nat)
    (decls : List Decl) : w.spot.Misses (parseDecls .strict r tags hashBang (n + 1) decls [] s) := by
  refine forall_errors_parseDecls (E := fun e s => s.cursor.position = w.index → e.expected.contains w.tag = false)
    (fun _ _ hlt heq => absurd heq (Nat.ne_of_gt hlt)) hend (fun d s' hd => ?_) (fun e s' hd => ?_) n decls
  · rwa [hd] at h
  · rwa [hd] at h

theorem Gone.succeeds (hend : (skipped t).cursor.isAtEnd = false) (h : w.Gone (declLine r (skipped t))) (n : Nat)
    (decls : List Decl) : w.Succeeds (parseDecls .strict r tags hashBang (n + 1) decls [] t) := by
  refine forall_errors_parseDecls
    (E := fun e t => w.index < t.cursor.position ∨ w.Refuses e t.cursor.position)
    (fun _ _ hlt => .inl hlt) hend (fun d t' hd => ?_) (fun e t' hd => ?_) n decls
  · rwa [hd] at h
  · rwa [hd] at h

variable [r.Enters] [r'.Enters] [r.Calm w.spot] [SideRules w r r']

theorem parseDecls_meets (paired : w.Paired s t) (n m : Nat) (decls decls' : List Decl) :
    w.spot.Misses (parseDecls .strict r tags hashBang n decls [] s) ∨
      w.Succeeds (parseDecls .strict r' tags' hashBang' m decls' [] t) := by
  induction n generalizing s t m decls decls' with
  | zero => exact .inl nofun
  | succ n ih =>
    cases m with
    | zero => exact .inr nofun
    | succ m =>
      have hskip : w.Meets .none SameWay (skipNewlines s) (skipNewlines t) := Ends.meets s t paired
      obtain h | h | ⟨_, _, s', t', hs, ht, paired, -⟩ := hskip.cases_none
      · exact .inl (.of_past fun _ _ => Nat.lt_of_lt_of_le h (skipped_le_parseDecls n decls s))
      · exact .inr (.of_past fun _ _ => Nat.lt_of_lt_of_le h (skipped_le_parseDecls m decls' t))
      · cases hs
        cases ht
        cases hend : (skipped s).cursor.isAtEnd with
        | true =>
          rw [parseDecls_end hend]
          exact .inl nofun
        | false =>
          cases hend' : (skipped t).cursor.isAtEnd with
          | true =>
            rw [parseDecls_end hend']
            exact .inr nofun
          | false =>
            have hline : LineMeets w (declLine r (skipped s)) (declLine r' (skipped t)) := declLine_meets paired
            cases hline with
            | quits h => exact .inl (h.misses hend n decls)
            | gone h => exact .inr (h.succeeds hend' m decls')
            | both hs ht paired =>
              rw [parseDecls_ok hend hs, parseDecls_ok hend' ht]
              exact ih paired m _ _
            | left hs htokens heq hstop =>
              rw [parseDecls_ok hend hs]
              rw [found, ← htokens, ← heq] at hstop
              exact .inl (.of_past fun e he => show w.index < _ from heq ▸ parseDecls_stop hstop n e he)
            | right ht htokens heq hstop =>
              rw [parseDecls_ok hend' ht]
              rw [tag, ← htokens, ← heq] at hstop
              exact .inr (.of_past (heq ▸ parseDecls_stop hstop m))

end Loops

/-! ## Two parses -/

/-- A `#!` line is taken; any other token is left. -/
theorem takeHashBang_cases (s : State) :
    s.cursor.currentTag = .hashBang ∧ (takeHashBang s).2 = s.moved (s.cursor.position + 1) ∨
      s.cursor.currentTag ≠ .hashBang ∧ (takeHashBang s).2 = s := by
  by_cases h : s.cursor.currentTag = .hashBang
  · refine .inl ⟨h, ?_⟩
    obtain ⟨tok, r, text, hrest, hk⟩ := exists_of_headTag_hashBang (Cursor.currentTag_eq _ ▸ h)
    have hs : s.cursor.isAtEnd = false := isAtEnd_eq_false h (by decide)
    have hcurrent : s.cursor.current.kind = .hashBang text := by
      rw [Cursor.current_eq, hrest]
      exact hk
    unfold takeHashBang
    rw [hcurrent]
    exact congrArg final (advance_of_not_isAtEnd hs)
  · rw [takeHashBang_eq (Cursor.currentTag_eq _ ▸ h)]
    exact .inr ⟨h, rfl⟩

/-- A strict parse moves forward. -/
theorem onward_parseModule (ts : TokenList) (names : Interner) :
    (Cursor.start ts).Onward (parseModule .strict (.start ts names)).state.cursor := by
  rw [parseModule_eq]
  have hstart : (Cursor.start ts).Onward (takeHashBang (.start ts names)).2.cursor := by
    unfold takeHashBang
    split
    · exact Cursor.onward_advance _
    · exact .refl _
  exact hstart.trans ((onward_skipped _).trans (skipped_onward_parseDecls _ _ _))

/-- A fat arrow behind a square bracket is asked for in no strict parse. -/
theorem parseModule_misses {p : Spot} (hrare : p.Rare) (htag : p.tag = .fatArrow) (names : Interner) :
    p.Misses (parseModule .strict (.start p.tokens names)) := by
  have rests : p.Rests none (.start p.tokens names) := ⟨rfl, Nat.le_refl _, hrare, fun _ => TagSet.contains_empty _⟩
  rw [parseModule_eq]
  obtain ⟨-, hs⟩ | ⟨-, hs⟩ := takeHashBang_cases (.start p.tokens names) <;> rw [hs]
  · have moved : p.Rests none ((State.start p.tokens names).moved 1) := rests.step hrare
    exact moved.parseDecls htag _ _
  · exact rests.parseDecls htag _ _

theorem paired_start (w : Fork) (names names' : Interner) :
    w.Paired (.start w.left names) (.start w.right names') where
  left := rfl
  right := rfl
  position := rfl
  le := Nat.zero_le _
  probed := Nat.le_refl _
  fresh _ := TagSet.contains_empty _
  gists := .refl _

/-- **Two parses up to a fork.**  Either the left one does not fail at the index with an error that asks for
the tag that the right list has there, or the right one gets past the index or is refused. -/
theorem parseModule_meets (w : Fork) (names names' : Interner) :
    w.spot.Misses (parseModule .strict (.start w.left names)) ∨
      w.Succeeds (parseModule .strict (.start w.right names')) := by
  rw [parseModule_eq, parseModule_eq]
  have paired := w.paired_start names names'
  obtain ⟨htag, hs⟩ | ⟨htag, hs⟩ := takeHashBang_cases (.start w.left names) <;>
    obtain ⟨htag', ht⟩ | ⟨htag', ht⟩ := takeHashBang_cases (.start w.right names') <;>
    rw [hs, ht]
  · rcases Nat.eq_zero_or_pos w.index with hzero | hpos
    · exact .inl (.of_past (parseDecls_past (show w.index < 1 by omega) _))
    · exact parseDecls_meets (paired.move (Nat.zero_le _) hpos) _ _ _ _
  · rcases Nat.eq_zero_or_pos w.index with hzero | hpos
    · exact .inl (.of_past (parseDecls_past (show w.index < 1 by omega) _))
    · exact absurd ((paired.currentTag hpos).trans htag) htag'
  · rcases Nat.eq_zero_or_pos w.index with hzero | hpos
    · exact .inr (.of_past (parseDecls_past (hzero ▸ Nat.zero_lt_one) _))
    · exact absurd ((paired.currentTag hpos).symm.trans htag') htag
  · exact parseDecls_meets paired _ _ _ _

end Fork

end SolSyntax
