import SolSyntax.Proofs.Fork

/-!
# Steps on two token lists

What asking and moving does to two runs on the two lists of a `Fork`.  Before the index both do the same.
At the index one may find what the other misses; it then takes that token, and so gets past the index.

Principal results: `Ends` instances for moves and for nodes; `ask` — a question and what comes of it;
`dispatch` — a choice by the current token.
-/

namespace SolSyntax.Fork

open Grammar Parse

variable {w : Fork} {s t : State} {stops : Stops}

/-! ## Moving -/

/-- What is no end is taken. -/
theorem Entered.advance (h : s.cursor.isAtEnd = false) : Entered s (advance s) := by
  rw [advance_of_not_isAtEnd h]
  exact .inl (Nat.lt_succ_self _)

instance : Ends w stops advance advance := by
  refine ⟨fun s t paired => ?_⟩
  cases hs : s.cursor.isAtEnd with
  | false =>
    rcases Nat.lt_or_eq_of_le paired.le with hlt | heq
    · have ht : t.cursor.isAtEnd = false := by
        rw [← hs, Cursor.isAtEnd, Cursor.isAtEnd, Cursor.isAt, Cursor.isAt, paired.currentTag hlt]
      have ht := advance_of_not_isAtEnd ht
      rw [paired.position] at ht
      exact .both (advance_of_not_isAtEnd hs) ht (paired.move (Nat.le_succ _) hlt) ⟨trivial⟩
    · exact .quits (.of_entered (Entered.advance hs) (Nat.le_of_eq heq.symm))
  | true =>
    cases ht : t.cursor.isAtEnd with
    | false =>
      rcases Nat.lt_or_eq_of_le paired.le with hlt | heq
      · rw [Cursor.isAtEnd, Cursor.isAt, paired.currentTag hlt] at ht
        rw [Cursor.isAtEnd, Cursor.isAt, ht] at hs
        cases hs
      · exact .gone (.of_entered (Entered.advance ht) (Nat.le_of_eq (paired.position.trans heq).symm))
    | true =>
      obtain ⟨a, ha⟩ := advance_end hs
      obtain ⟨b, hb⟩ := advance_end ht
      exact .both ha hb paired ⟨trivial⟩

/-- Tokens of a class are skipped up to the same place, if not beyond the index. -/
theorem cases_skipFrom (w : Fork) (q : Tag → Bool) {i : Nat} (hi : i ≤ w.index) :
    (Cursor.skipFrom w.right q i = Cursor.skipFrom w.left q i ∧ Cursor.skipFrom w.left q i ≤ w.index) ∨
      (w.index < Cursor.skipFrom w.left q i ∧ w.index ≤ Cursor.skipFrom w.right q i) ∨
      (w.index ≤ Cursor.skipFrom w.left q i ∧ w.index < Cursor.skipFrom w.right q i) := by
  rcases Nat.lt_or_eq_of_le hi with hlt | rfl
  · unfold Cursor.skipFrom
    rw [w.tagAt_eq hlt]
    simp only [w.lt_size_iff hlt]
    split
    · exact cases_skipFrom w q hlt
    · exact .inl ⟨rfl, hi⟩
  · rcases Nat.lt_or_eq_of_le (Cursor.le_skipFrom w.left q w.index) with hlt | heq
    · exact .inr (.inl ⟨hlt, Cursor.le_skipFrom _ _ _⟩)
    · rcases Nat.lt_or_eq_of_le (Cursor.le_skipFrom w.right q w.index) with hlt | heq'
      · exact .inr (.inr ⟨Cursor.le_skipFrom _ _ _, hlt⟩)
      · exact .inl ⟨heq'.symm.trans heq, Nat.le_of_eq heq.symm⟩
termination_by w.index - i

instance : Ends w stops skipNewlines skipNewlines := by
  refine ⟨fun s t paired => ?_⟩
  have hs : skipNewlines s = .ok () (s.moved (Cursor.skipFrom s.cursor.tokens _ s.cursor.position)) := rfl
  have ht : skipNewlines t = .ok () (t.moved (Cursor.skipFrom t.cursor.tokens _ t.cursor.position)) := rfl
  rw [paired.left] at hs
  rw [paired.right, paired.position] at ht
  obtain ⟨heq, hle⟩ | ⟨hpast, -⟩ | ⟨-, hpast⟩ := w.cases_skipFrom (· == .newline) paired.le
  · rw [heq] at ht
    exact .both hs ht (paired.move (Cursor.le_skipFrom _ _ _) hle) ⟨trivial⟩
  · exact .quits (.of_past (by rw [hs]; exact hpast))
  · exact .gone (.of_past (by rw [ht]; exact hpast))

instance : Ends w stops eatSeparators eatSeparators := by
  refine ⟨fun s t paired => ?_⟩
  have hs := eatSeparators_eq_ite s
  have ht := eatSeparators_eq_ite t
  rw [paired.left] at hs
  rw [paired.right, paired.position] at ht
  simp only at hs ht
  have hpast {i : Nat} (h : w.index < i) : i ≠ s.cursor.position := Nat.ne_of_gt (Nat.lt_of_le_of_lt paired.le h)
  obtain ⟨heq, hle⟩ | ⟨h, -⟩ | ⟨-, h⟩ :=
    w.cases_skipFrom (fun tag => tag == .comma || tag == .newline) paired.le
  · rw [heq] at ht
    split at hs
    · rename_i hstays
      rw [if_pos hstays] at ht
      refine .both hs ht (paired.note fun hindex => ?_) ⟨rfl⟩
      -- the right list has no separator at the index, or it would be skipped
      rw [hindex] at heq hstays
      rw [hstays] at heq
      unfold Cursor.skipFrom at heq
      split at heq
      · have := Cursor.le_skipFrom w.right (fun tag => tag == .comma || tag == .newline) (w.index + 1)
        omega
      · rename_i hno
        -- past the end there is only `eof`
        have hno : ¬(w.tag == .comma || w.tag == .newline) = true := by
          intro h
          refine hno ⟨Nat.lt_of_not_le fun hsize => ?_, h⟩
          rw [tag, TokenList.tagAt_of_size_le hsize] at h
          cases h
        revert hno
        generalize w.tag = tag
        cases tag <;> decide
    · rename_i hmoves
      rw [if_neg hmoves] at ht
      exact .both hs ht (paired.move (Cursor.le_skipFrom _ _ _) hle) ⟨rfl⟩
  · rw [if_neg (hpast h)] at hs
    exact .quits (.of_past (by rw [hs]; exact h))
  · rw [if_neg (hpast h)] at ht
    exact .gone (.of_past (by rw [ht]; exact h))

/-! ## Looking and storing -/

theorem Sides.look [Steers α] {f g : Cursor → α} (h : ∀ s t, w.Paired s t → Alike (f s.cursor) (g t.cursor)) :
    Ends w stops (look f) (look g) := of_ok fun s t paired => ⟨_, _, s, t, rfl, rfl, paired, h s t paired⟩

instance : Ends w stops current current := Sides.look fun _ _ _ => inferInstance
instance : Ends w stops previousSpan previousSpan := Sides.look fun _ _ _ => inferInstance

instance (start start' : Span) : Ends w stops (spanFrom start) (spanFrom start') := by
  unfold spanFrom; infer_instance

instance (id id' : ExprId) : Ends w stops (exprSpan id) (exprSpan id') :=
  Sides.of_ok fun s t paired => ⟨_, _, s, t, rfl, rfl, paired, inferInstance⟩

instance (id id' : PatternId) : Ends w stops (patternSpan id) (patternSpan id') :=
  Sides.of_ok fun s t paired => ⟨_, _, s, t, rfl, rfl, paired, inferInstance⟩

instance (kind kind' : PatternKind) (span span' : Span) :
    Ends w stops (newPattern kind span) (newPattern kind' span') :=
  Sides.of_ok fun s t paired => ⟨_, _, { s with arena := (s.arena.newPattern ⟨kind, span⟩).2 },
    { t with arena := (t.arena.newPattern ⟨kind', span'⟩).2 }, rfl, rfl,
    paired.arena (by rw [Arena.gists_newPattern, Arena.gists_newPattern]; exact paired.gists) _ _, inferInstance⟩

/-- Nodes of one gist, or an application of a value where there is one of a type. -/
theorem newExpr_meets {kind kind' : ExprKind} (paired : w.Paired s t) (span span' : Span)
    (h : kind'.gist = kind.gist ∨
      kind.gist = .other ∧ ∃ parts, kind'.gist = .call parts ∧ ∀ part ∈ parts, TypeLike s.arena.gists part) :
    w.Meets stops SameWay (newExpr kind span s) (newExpr kind' span' t) := by
  have gists : Softens (s.arena.newExpr ⟨kind, span⟩).2.gists (t.arena.newExpr ⟨kind', span'⟩).2.gists := by
    rw [Arena.gists_newExpr, Arena.gists_newExpr]
    exact paired.gists.push h
  exact .both rfl rfl (paired.arena gists _ _) ⟨congrArg ExprId.mk paired.gists.size_eq.symm⟩

instance {kind kind' : ExprKind} [h : Alike kind kind'] (span span' : Span) :
    Ends w stops (newExpr kind span) (newExpr kind' span') :=
  ⟨fun _ _ paired => newExpr_meets paired span span' (.inl h.alike.symm)⟩

/-- Forms that take no arguments are told apart in the same way. -/
theorem Paired.isClosedForm_eq (paired : w.Paired s t) (id : ExprId) :
    ∃ c, isClosedForm id s = .ok c s ∧ isClosedForm id t = .ok c t := by
  refine ⟨_, Grammar.isClosedForm_eq id s, ?_⟩
  have hopen : (t.arena.gists[id.index]? == some .openIf) = _ := paired.gists.beq_eq id.index (by decide)
  have hclosed : (t.arena.gists[id.index]? == some .closed) = _ := paired.gists.beq_eq id.index (by decide)
  rw [Grammar.isClosedForm_eq]
  simp only [List.contains_cons, List.contains_nil, hopen, hclosed]

instance (id : ExprId) : Ends w stops (isClosedForm id) (isClosedForm id) :=
  Sides.of_ok fun s t paired => by
    obtain ⟨c, hs, ht⟩ := paired.isClosedForm_eq id
    exact ⟨c, c, s, t, hs, ht, paired, inferInstance⟩

/-- Only the left one can fail alone, as what it says is not about the index. -/
instance (id : ExprId) : Ends w stops (toType id) (toType id) := by
  refine ⟨fun s t paired => ?_⟩
  unfold toType Arena.toType
  cases hs : s.arena.retag (id.index + 1) id with
  | mk r a =>
    cases r with
    | error e => exact .quits fun _ => TagSet.contains_empty _
    | ok x =>
      obtain ⟨b, hb, hgists⟩ := Arena.retag_softens (id.index + 1) id _ _ _ paired.gists hs
      rw [hb]
      exact .both rfl rfl (paired.arena hgists _ _) ⟨trivial⟩

/-! ## Asking -/

/-- A question about the current token, which only a token of a set can meet.  Both runs get the same
answer, or one of them is at the index and gets a yes. -/
class Tests (w : Fork) (test : Parse Bool) (set : outParam TagSet) extends Finds set test where
  tests : ∀ s t, w.Paired s t →
    (∃ c s' t', test s = .ok c s' ∧ test t = .ok c t' ∧ w.Paired s' t') ∨
      s.cursor.position = w.index ∧ ((∃ s', test s = .ok true s') ∨ ∃ t', test t = .ok true t')

namespace Tests

instance (set : TagSet) : Tests w (checkSet set) set where
  tests s t paired := by
    rcases Nat.lt_or_eq_of_le paired.le with hlt | heq
    · have htag := paired.currentTag hlt
      cases hs : set.contains s.cursor.currentTag with
      | true => exact .inl ⟨_, s, t, checkSet_of_mem hs, checkSet_of_mem (htag ▸ hs), paired⟩
      | false =>
        exact .inl ⟨_, _, _, checkSet_of_not_mem hs, checkSet_of_not_mem (htag ▸ hs),
          paired.note fun heq => absurd heq (Nat.ne_of_lt hlt)⟩
    · cases hs : set.contains s.cursor.currentTag with
      | true => exact .inr ⟨heq, .inl ⟨s, checkSet_of_mem hs⟩⟩
      | false =>
        cases ht : set.contains t.cursor.currentTag with
        | true => exact .inr ⟨heq, .inr ⟨t, checkSet_of_mem ht⟩⟩
        | false =>
          exact .inl ⟨_, _, _, checkSet_of_not_mem hs, checkSet_of_not_mem ht,
            paired.note fun _ => paired.currentTag_right heq ▸ ht⟩

instance (tag : Tag) : Tests w (check tag) (.single tag) := by
  rw [check_eq_checkSet]; infer_instance

instance (tag : Tag) : Tests w (isAt tag) (.single tag) where
  tests s t paired := by
    have run (s : State) : isAt tag s = .ok (s.cursor.isAt tag) s := rfl
    rcases Nat.lt_or_eq_of_le paired.le with hlt | heq
    · exact .inl ⟨s.cursor.isAt tag, s, t, rfl, by rw [run, Cursor.isAt, Cursor.isAt, paired.currentTag hlt], paired⟩
    · cases hs : s.cursor.isAt tag with
      | true => exact .inr ⟨heq, .inl ⟨s, by rw [run, hs]⟩⟩
      | false =>
        cases ht : t.cursor.isAt tag with
        | true => exact .inr ⟨heq, .inr ⟨t, by rw [run, ht]⟩⟩
        | false => exact .inl ⟨false, s, t, by rw [run, hs], by rw [run, ht], paired⟩

end Tests

/-! ## Branching -/

section Branching

variable {set : TagSet} {p q p' q' : Parse α}

/-- The left run takes up the token at the index. -/
theorem Paired.quits [hp : Enters set p] (h : w.Paired s t) (heq : s.cursor.position = w.index)
    (hset : set.contains w.found = true) : w.Quits (p s) :=
  .of_entered (hp.enters s (by rw [h.currentTag_left heq, hset])) (Nat.le_of_eq heq.symm)

/-- The right run takes up the token at the index. -/
theorem Paired.gone [hp : Enters set p] (h : w.Paired s t) (heq : s.cursor.position = w.index)
    (hset : set.contains w.tag = true) : w.Gone (p t) :=
  .of_entered (hp.enters t (by rw [h.currentTag_right heq, hset])) (Nat.le_of_eq (h.position.trans heq).symm)

/-- A failure at the index for want of something else than the right list has there. -/
theorem Paired.quits_failWanting (h : w.Paired s t) (c : Complaint)
    (hset : s.cursor.position = w.index → set.contains w.tag = false) :
    w.Quits (failWanting set c s : EStateM.Result Failure State α) :=
  have paired : w.Paired (s.noted set) (t.noted set) := h.note hset
  paired.fresh

/-- A question, and what comes of it. -/
theorem ask_meets {X : α → α → State → State → Prop} {test : Parse Bool} [h : Tests w test set] [hp : Enters set p]
    [hq : Enters set q] (paired : w.Paired s t)
    (hyes : ∀ s' t', w.Paired s' t' → set.contains s'.cursor.currentTag = true → w.Meets stops X (p s') (q t'))
    (hno : ∀ s' t', w.Paired s' t' → w.Meets stops X (p' s') (q' t')) :
    w.Meets stops X ((test >>= fun c => if c = true then p else p') s)
      ((test >>= fun c => if c = true then q else q') t) := by
  obtain ⟨c, s', t', hs, ht, paired'⟩ | ⟨heq, ⟨s', hs⟩ | ⟨t', ht⟩⟩ := h.tests s t paired
  · rw [bind_of_ok hs, bind_of_ok ht]
    cases c with
    | true => exact hyes s' t' paired' (Finds.there hs).1
    | false => exact hno s' t' paired'
  · rw [bind_of_ok hs, if_pos rfl]
    exact .quits (.of_entered (hp.enters s' (Finds.there hs).1) (Nat.le_of_eq ((Finds.there hs).2.trans heq).symm))
  · rw [bind_of_ok ht, if_pos rfl]
    have heq' := paired.position.trans heq
    exact .gone (.of_entered (hq.enters t' (Finds.there ht).1) (Nat.le_of_eq ((Finds.there ht).2.trans heq').symm))

variable [Steers α]

instance ask {test : Parse Bool} [Tests w test set] [Enters set p] [Enters set q] [Ends w stops p q]
    [Ends w stops p' q'] :
    Ends w stops (test >>= fun c => if c = true then p else p') (test >>= fun c => if c = true then q else q') :=
  ⟨fun _ _ paired => ask_meets paired (fun s t paired _ => Ends.meets s t paired) Ends.meets⟩

/-- A look ahead, and what comes of it.  Where the answers differ before the index, one of the runs is over. -/
theorem look_ends {f : Cursor → Bool} [hf : Finds set (look f)] [Enters set p] [Enters set q] [Ends w stops p q]
    [Ends w stops p' q']
    (hover : ∀ s t, w.Paired s t → s.cursor.position < w.index → f t.cursor ≠ f s.cursor →
      w.Quits ((look f >>= fun c => if c = true then p else p') s) ∨
        w.Gone ((look f >>= fun c => if c = true then q else q') t)) :
    Ends w stops (look f >>= fun c => if c = true then p else p') (look f >>= fun c => if c = true then q else q') := by
  refine ⟨fun s t paired => ?_⟩
  have run {p p' : Parse α} (s : State) : (look f >>= fun c => if c = true then p else p') s =
      (if f s.cursor = true then p else p') s := rfl
  by_cases hsame : f t.cursor = f s.cursor
  · rw [run, run, hsame]
    exact Ends.meets s t paired
  rcases Nat.lt_or_eq_of_le paired.le with hlt | heq
  · exact (hover s t paired hlt hsame).elim .quits .gone
  · rw [run, run]
    cases hs : f s.cursor with
    | true =>
      rw [if_pos rfl]
      have hrun : look f s = .ok true s := by rw [← hs]; rfl
      exact .quits (paired.quits heq (paired.currentTag_left heq ▸ (hf.there hrun).1))
    | false =>
      have ht : f t.cursor = true := by rwa [hs, Bool.not_eq_false] at hsame
      rw [ht, if_pos rfl]
      have hrun : look f t = .ok true t := by rw [← ht]; rfl
      exact .gone (paired.gone heq (paired.currentTag_right heq ▸ (hf.there hrun).1))

/-- Two steps that meet from paired states before the index. -/
class Before (w : Fork) (stops : Stops) [Steers α] (p q : Parse α) : Prop where
  meets : ∀ s t, w.Paired s t → s.cursor.position < w.index → w.Meets stops SameWay (p s) (q t)

instance (priority := low) [h : Ends w stops p q] : Before w stops p q := ⟨fun s t paired _ => h.meets s t paired⟩

instance (c : Complaint) : Before w stops (failWanting set c : Parse α) (failWanting set c) :=
  ⟨fun _ _ paired hlt => .quits (paired.quits_failWanting c fun heq => absurd heq (Nat.ne_of_lt hlt))⟩

/-- A choice by the current token between readers of what a set of tags begins, and what comes of other
tokens. -/
theorem dispatch_meets (set : TagSet) {f g : Token → Parse α} [Enters set (current >>= f)] [Enters set (current >>= g)]
    (hbefore : ∀ token, Before w stops (f token) (g token)) (paired : w.Paired s t)
    (hother : s.cursor.position = w.index → set.contains s.cursor.current.tag = false →
      set.contains t.cursor.current.tag = false →
      w.Meets stops SameWay (f s.cursor.current s) (g t.cursor.current t)) :
    w.Meets stops SameWay ((current >>= f) s) ((current >>= g) t) := by
  rcases Nat.lt_or_eq_of_le paired.le with hlt | heq
  · show w.Meets stops SameWay (f s.cursor.current s) (g t.cursor.current t)
    rw [paired.current hlt]
    exact (hbefore s.cursor.current).meets s t paired hlt
  · cases hs : set.contains w.found with
    | true => exact .quits (paired.quits heq hs)
    | false =>
      cases ht : set.contains w.tag with
      | true => exact .gone (paired.gone heq ht)
      | false =>
        refine hother heq ?_ ?_
        · rwa [← currentTag_eq_tag, paired.currentTag_left heq]
        · rwa [← currentTag_eq_tag, paired.currentTag_right heq]

/-- All other tokens are missed. -/
theorem dispatch (set : TagSet) {f g : Token → Parse α} [Enters set (current >>= f)] [Enters set (current >>= g)]
    (hfail : ∀ token, set.contains token.tag = false → ∃ c, f token = failWanting set c)
    (hbefore : ∀ token, Before w stops (f token) (g token)) : Ends w stops (current >>= f) (current >>= g) := by
  refine ⟨fun s t paired => dispatch_meets set hbefore paired fun heq hs ht => ?_⟩
  obtain ⟨c, hc⟩ := hfail _ hs
  rw [hc]
  refine .quits (paired.quits_failWanting c fun _ => ?_)
  rwa [← currentTag_eq_tag, paired.currentTag_right heq] at ht

instance [Sides w p q] [Forward p] [Forward q] :
    Ends w stops (p >>= fun a => pure (some a)) (q >>= fun a => pure (some a)) :=
  Sides.bind fun _ _ _ => inferInstance

instance {test : Parse Bool} [Tests w test set] [Enters set p] [Enters set q] [Forward p] [Forward q]
    [Sides w p q] : Ends w stops (optionally test p) (optionally test q) := by
  unfold optionally; infer_instance

instance (priority := low) {test : Parse Bool} [Sides w test test] [Forward p] [Forward q] [Sides w p q] :
    Ends w stops (optionally test p) (optionally test q) := by
  unfold optionally; infer_instance

end Branching

/-! ## Taking tokens -/

section Taking

variable {tag : Tag} [(TagSet.single tag).Inner]

instance : Ends w stops (accept tag) (accept tag) := by unfold accept; infer_instance

instance : Ends w stops (expect tag) (expect tag) := by rw [expect_eq_check]; infer_instance

/-- A complaint about a group. -/
instance [Steers α] (close : Tag) (opening opening' : Span) :
    Ends w stops (look (·.complain (.unclosed close)) >>= fun e => raise (e.withOpened opening) : Parse α)
      (look (·.complain (.unclosed close)) >>= fun e => raise (e.withOpened opening')) :=
  ⟨fun _ _ paired => .quits paired.fresh⟩

instance (opening opening' : Span) : Ends w stops (expectClosing tag opening) (expectClosing tag opening') := by
  unfold expectClosing; infer_instance

end Taking

instance : Ends w stops expectIdent expectIdent := by
  have : Enters .identStart (current >>= identOf) := expectIdent_eq_identOf ▸ inferInstance
  rw [expectIdent_eq_identOf]
  refine dispatch .identStart (fun token h => ?_) fun token => ?_
  · rw [Token.tag] at h
    unfold identOf
    cases hk : token.kind <;> rw [hk] at h <;> simp only [TokenKind.tag] at h <;>
      first
      | exact ⟨_, rfl⟩
      | exact absurd h (by decide)
  · unfold identOf
    cases token.kind <;> infer_instance

end SolSyntax.Fork
