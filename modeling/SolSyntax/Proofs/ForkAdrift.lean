import SolSyntax.Proofs.AskingDecls
import SolSyntax.Proofs.ForkAlone

/-!
# Declarations of the left run alone

What stands behind braces tells whether they hold parameters of what is declared, and what stands on the line
whether that is a clause.  Where the two lists of a `Fork` differ in this, the left run has a body for parameters, or
no clause.  It may get to the index so, but the line does not end there, and it has not asked for the tag that the
right list has.

Principal results: `declParams_loosens` — parameters of what is declared; `namedDecl_drifts` — signatures and
clauses; `Adrift.lineEnd` — no line ends behind them but at the end of one.
-/

-- instances are long terms, as productions have many steps
set_option synthInstance.maxSize 2000

namespace SolSyntax.Fork

open Grammar Parse

variable {w : Fork} {s s' t : State} {r : Rules}

/-- What ends a line. -/
def lineStops : TagSet := .ofList [.newline, .eof]

theorem endsLine_eq (c : Cursor) : endsLine c = lineStops.contains c.currentTag := by
  rw [endsLine, Cursor.isAtEnd, Cursor.isAt, Cursor.isAt]
  cases c.currentTag <;> decide

/-- Where the line ends, its end is left. -/
theorem lineEnd_of_stop (h : lineStops.contains s.cursor.currentTag = true) :
    ∃ s', lineEnd s = .ok () s' ∧ s'.cursor.tokens = s.cursor.tokens ∧
      s'.cursor.position = s.cursor.position := by
  unfold lineEnd
  obtain ⟨s₁, h₁, m₁⟩ := check_eq .newline s
  rw [bind_of_ok h₁, ← Cursor.currentTag_eq]
  cases hbreak : s.cursor.currentTag == .newline with
  | true => exact ⟨s₁, rfl, m₁.tokens, m₁.position⟩
  | false =>
    obtain ⟨s₂, h₂, m₂⟩ := check_eq .eof s₁
    refine ⟨s₂, ?_, m₂.tokens.trans m₁.tokens, m₂.position.trans m₁.position⟩
    rw [← endsLine_eq, endsLine, Cursor.isAtEnd, Cursor.isAt, Cursor.isAt, hbreak, Bool.false_or] at h
    rw [← Cursor.currentTag_eq, m₁.currentTag, h] at h₂
    exact (bind_of_ok h₂).trans rfl

/-- Where it does not end, its end is missing. -/
theorem lineEnd_of_no_stop (h : lineStops.contains s.cursor.currentTag = false) :
    lineEnd s = fail .expectedLineBreak ((s.noted (.single .newline)).noted (.single .eof)) := by
  have hcheck {tag : Tag} (htag : lineStops.contains tag = true) :
      (TagSet.single tag).contains s.cursor.currentTag = false := by
    refine TagSet.contains_single_of_ne fun e => ?_
    rw [e, htag] at h
    cases h
  unfold lineEnd
  rw [check_eq_checkSet, bind_of_ok (checkSet_of_not_mem (hcheck rfl)), if_neg Bool.false_ne_true, check_eq_checkSet]
  exact bind_of_ok (checkSet_of_not_mem (s := s.noted (.single .newline)) (hcheck rfl))

/-- The left run has read a declaration that the right one reads in another way. -/
structure Adrift (w : Fork) (s : State) : Prop where
  rests : w.spot.Rests (some 0) s
  le : s.cursor.position ≤ w.index
  tag : lineStops.contains w.tag = false
  before : s.cursor.position < w.index → lineStops.contains s.cursor.currentTag = false

/-- It ends its line at the index only. -/
theorem Adrift.lineEnd (h : w.Adrift s) :
    w.Quits (Grammar.lineEnd s) ∨ lineStops.contains w.found = true ∧
      ∃ s', Grammar.lineEnd s = .ok () s' ∧ s'.cursor.tokens = w.left ∧ s'.cursor.position = w.index := by
  have htag := currentTag_of_rests h.rests
  cases hstop : lineStops.contains s.cursor.currentTag with
  | true =>
    have heq : s.cursor.position = w.index := (Nat.lt_or_eq_of_le h.le).resolve_left fun hlt => by
      rw [h.before hlt] at hstop
      cases hstop
    obtain ⟨s', hs, htokens, hposition⟩ := lineEnd_of_stop hstop
    rw [heq] at htag
    rw [htag] at hstop
    exact .inr ⟨hstop, s', hs, htokens.trans h.rests.tokens, hposition.trans heq⟩
  | false =>
    rw [lineEnd_of_no_stop hstop]
    have lacks {tag : Tag} (hmem : lineStops.contains tag = true) : (TagSet.single tag).contains w.tag = false := by
      refine TagSet.contains_single_of_ne fun e => ?_
      have hno := h.tag
      rw [show w.tag = tag from e, hmem] at hno
      cases hno
    exact .inl ((h.rests.note fun _ => lacks rfl).note fun _ => lacks rfl).fresh

/-! ## Parameters of what is declared -/

/-- What braces with parameters have behind them. -/
def followersOfBraces : List Tag := [.lparen, .lbracket, .lbrace, .colon]

theorem followersOfBraces_sub {tag : Tag} (h : tag ∈ followersOfBraces) : tag ∈ followers := by
  revert h
  cases tag <;> decide

theorem startsImplicitParams_eq (c : Cursor) :
    startsImplicitParams c = (c.isAt .lbrace && followersOfBraces.any c.groupFollowedBy) := rfl

/-- The left run has read parameters of what is declared as far as it could: up to braces that the right one takes for
others, or behind braces that it does not take for parameters. -/
inductive Loose (w : Fork) (s : State) : Prop
  | before : w.spot.Rests (some 0) s → s.cursor.currentTag = .lbrace → s.cursor.position < w.index →
      w.EndsGroup s.cursor.position → w.tag ∈ followersOfBraces → Loose w s
  | behind : w.spot.Rests (some 0) s → s.cursor.position = w.index → s.cursor.currentTag ∈ [Tag.lbrace, .colon] →
      w.tag ∉ followersOfBraces → Loose w s

theorem startsDeclParams_eq (s : State) : startsDeclParams s =
    if s.cursor.currentTag = .lparen then .ok true s
    else if s.cursor.currentTag = .lbracket then .ok true (s.noted (.single .lparen))
    else .ok (startsImplicitParams s.cursor) ((s.noted (.single .lparen)).noted (.single .lbracket)) := by
  have hcheck (tag : Tag) (s : State) : check tag s =
      if s.cursor.currentTag = tag then .ok true s else .ok false (s.noted (.single tag)) := by
    rw [check_eq_checkSet]
    split
    · rename_i h
      exact checkSet_of_mem (h ▸ TagSet.contains_single_self _)
    · rename_i h
      exact checkSet_of_not_mem (TagSet.contains_single_of_ne h)
  unfold startsDeclParams
  by_cases hparen : s.cursor.currentTag = .lparen
  · rw [if_pos hparen, bind_of_ok ((hcheck _ _).trans (if_pos hparen))]
    rfl
  rw [if_neg hparen, bind_of_ok ((hcheck _ _).trans (if_neg hparen))]
  have hsame : (s.noted (.single .lparen)).cursor.currentTag = s.cursor.currentTag := rfl
  by_cases hbracket : s.cursor.currentTag = .lbracket
  · rw [if_pos hbracket, if_neg Bool.false_ne_true, bind_of_ok ((hcheck _ _).trans (if_pos (hsame.trans hbracket)))]
    rfl
  · rw [if_neg hbracket, if_neg Bool.false_ne_true, bind_of_ok ((hcheck _ _).trans (if_neg (hsame ▸ hbracket)))]
    rfl

section Turns

variable {params : List ParamSet}

/-- One more list of parameters. -/
theorem declTurn_true (h : startsDeclParams s = .ok true s') :
    manyTurn (optionally startsDeclParams (paramSet r)) params s =
      (paramSet r >>= fun set => pure (.yield (set :: params))) s' := by
  simp only [manyTurn, optionally, bind_assoc]
  rw [bind_of_ok h, if_pos rfl]
  simp only [bind_assoc, pure_bind]

theorem declTurn_false (h : startsDeclParams s = .ok false s') :
    manyTurn (optionally startsDeclParams (paramSet r)) params s = .ok (.done params) s' := by
  simp only [manyTurn, optionally, bind_assoc]
  rw [bind_of_ok h]
  rfl

variable [r.Forward] [r.Calm w.spot]

omit [r.Calm w.spot] in
/-- Behind braces that it takes for parameters, the left run looks for others in vain. -/
theorem declTurn_behind [r.Enters] (rests : w.spot.Rests (some 0) s) (heq : s.cursor.position = w.index)
    (hfollows : s.cursor.currentTag ∈ followersOfBraces) (htag : w.tag ∉ followersOfBraces) :
    w.Quits (manyTurn (optionally startsDeclParams (paramSet r)) params s) ∨
      ∃ u, manyTurn (optionally startsDeclParams (paramSet r)) params s = .ok (.done params) u ∧ w.Loose u := by
  have taken {u : State} (hu : startsDeclParams s = .ok true u) (hplace : u.cursor.currentTag = s.cursor.currentTag)
      (hposition : u.cursor.position = s.cursor.position)
      (hset : TagSet.paramListStart.contains s.cursor.currentTag = true) :
      w.Quits (manyTurn (optionally startsDeclParams (paramSet r)) params s) := by
    rw [declTurn_true hu]
    exact (quits_of_enters (hplace ▸ hset) (Nat.le_of_eq (hposition.trans heq).symm)).bind
  have hrun := startsDeclParams_eq s
  by_cases hparen : s.cursor.currentTag = .lparen
  · rw [if_pos hparen] at hrun
    exact .inl (taken hrun rfl rfl (by rw [hparen]; rfl))
  rw [if_neg hparen] at hrun
  by_cases hbracket : s.cursor.currentTag = .lbracket
  · rw [if_pos hbracket] at hrun
    exact .inl (taken hrun rfl rfl (by rw [hbracket]; rfl))
  rw [if_neg hbracket] at hrun
  cases hstarts : startsImplicitParams s.cursor with
  | true =>
    rw [hstarts] at hrun
    exact .inl (taken hrun rfl rfl (Finds.paramListStart_of_startsImplicitParams hstarts))
  | false =>
    rw [hstarts] at hrun
    have lacks {tag : Tag} (hmem : tag ∈ followersOfBraces) : (TagSet.single tag).contains w.tag = false :=
      TagSet.contains_single_of_ne fun e => htag (e.symm ▸ hmem)
    refine .inr ⟨_, declTurn_false hrun, .behind
        ((rests.note fun _ => lacks (by decide)).note fun _ => lacks (by decide))
      heq ?_ htag⟩
    show s.cursor.currentTag ∈ [Tag.lbrace, .colon]
    simpa [followersOfBraces, hparen, hbracket] using hfollows

omit [r.Forward] [r.Calm w.spot] in
theorem startsDeclParams_of_brace (hbrace : s.cursor.currentTag = .lbrace) : startsDeclParams s =
    .ok (followersOfBraces.any s.cursor.groupFollowedBy) ((s.noted (.single .lparen)).noted (.single .lbracket)) := by
  rw [startsDeclParams_eq, if_neg (by rw [hbrace]; nofun), if_neg (by rw [hbrace]; nofun), startsImplicitParams_eq,
    Cursor.isAt, hbrace]
  rfl

section Braces

variable (paired : w.Paired s t) (hlt : s.cursor.position < w.index) (hbrace : s.cursor.currentTag = .lbrace)
include paired hlt hbrace

/-- Braces that hold parameters on the left only. -/
theorem declParams_loosens_behind [r.Enters] (hleft : followersOfBraces.any s.cursor.groupFollowedBy = true)
    (hright : followersOfBraces.any t.cursor.groupFollowedBy = false) (n : Nat) :
    w.Wanders w.Loose (turns (manyTurn (optionally startsDeclParams (paramSet r))) (n + 1) params s) := by
  have hopening : s.cursor.currentTag.isOpening = true := by rw [hbrace]; rfl
  obtain ⟨tag, hmem, hseen⟩ := List.any_eq_true.1 hleft
  have hnone (tag : Tag) (htag : tag ∈ followersOfBraces) : t.cursor.groupFollowedBy tag = false :=
    Bool.eq_false_iff.2 fun h => by rw [List.any_eq_true.2 ⟨tag, htag, h⟩] at hright; cases hright
  have hsplit := paired.group_split hlt hopening (followersOfBraces_sub hmem)
    (by rw [hnone tag hmem, hseen]; exact Bool.false_ne_true)
  have htag : w.tag ∉ followersOfBraces := fun htag => by
    obtain hends | ⟨-, heof, -⟩ := hsplit
    · have := hnone w.tag htag
      rw [(hends.groupFollowedBy_eq paired hlt hopening _).2, beq_self_eq_true] at this
      cases this
    · rw [heof] at htag
      exact absurd htag (by decide)
  have hrun := startsDeclParams_of_brace hbrace
  rw [hleft] at hrun
  have hturn := @declTurn_true _ _ r params hrun
  have noted : w.Paired ((s.noted (.single .lparen)).noted (.single .lbracket))
      ((t.noted (.single .lparen)).noted (.single .lbracket)) :=
    (paired.note fun heq => absurd heq (Nat.ne_of_lt hlt)).note fun heq => absurd heq (Nat.ne_of_lt hlt)
  have hlist : TagSet.paramListStart.contains s.cursor.currentTag = true := by rw [hbrace]; rfl
  obtain hquits | ⟨set, s', hs, heq, rests, hbehind⟩ :=
      paramSet_ends (r := r) noted hlt hlist (hsplit.imp_right And.right)
  · exact .inl (turns_quits (hturn ▸ hquits.bind) _)
  rw [bind_of_ok hs] at hturn
  have hfollows : s'.cursor.currentTag ∈ followersOfBraces := by
    rw [hbehind tag hseen]
    exact hmem
  rw [show turns _ (n + 1) params s = _ from bind_of_ok hturn]
  cases n with
  | zero => exact .inl trivial
  | succ n =>
    obtain hquits | hdone := @declTurn_behind _ _ r (set :: params) _ _ rests heq hfollows htag
    · exact .inl (turns_quits hquits _)
    · exact wanders_of_done ⟨_, hdone⟩ n

omit [r.Forward] [r.Calm w.spot] in
/-- Braces that hold parameters on the right only. -/
theorem declParams_loosens_before (hleft : followersOfBraces.any s.cursor.groupFollowedBy = false)
    (hright : followersOfBraces.any t.cursor.groupFollowedBy = true) (n : Nat) :
    w.Wanders w.Loose (turns (manyTurn (optionally startsDeclParams (paramSet r))) (n + 1) params s) := by
  have hopening : s.cursor.currentTag.isOpening = true := by rw [hbrace]; rfl
  obtain ⟨tag, hmem, hseen⟩ := List.any_eq_true.1 hright
  have hnone : s.cursor.groupFollowedBy tag = false :=
    Bool.eq_false_iff.2 fun h => by rw [List.any_eq_true.2 ⟨tag, hmem, h⟩] at hleft; cases hleft
  have hrun := startsDeclParams_of_brace hbrace
  rw [hleft] at hrun
  have noted : w.Paired ((s.noted (.single .lparen)).noted (.single .lbracket))
      ((t.noted (.single .lparen)).noted (.single .lbracket)) :=
    (paired.note fun heq => absurd heq (Nat.ne_of_lt hlt)).note fun heq => absurd heq (Nat.ne_of_lt hlt)
  obtain hends | ⟨htrue, -⟩ := paired.group_split hlt hopening (followersOfBraces_sub hmem)
    (by rw [hnone, hseen]; nofun)
  · have htag : w.tag = tag := by
      rw [(hends.groupFollowedBy_eq paired hlt hopening _).2] at hseen
      exact eq_of_beq hseen
    refine wanders_of_done ⟨_, _, declTurn_false hrun, .before (noted.rests fun _ => ?_) hbrace
        hlt hends (htag ▸ hmem)⟩ n
    exact hends.closes hlt (paired.left ▸ hopening)
  · rw [hnone] at htrue
    cases htrue

end Braces

/-- Where the two lists differ in whether braces hold parameters, these are over for the left run. -/
theorem declParams_loosens [r.Enters] (paired : w.Paired s t) (hlt : s.cursor.position < w.index)
    (hne : startsImplicitParams t.cursor ≠ startsImplicitParams s.cursor) (n : Nat) :
    w.Wanders w.Loose (turns (manyTurn (optionally startsDeclParams (paramSet r))) (n + 1) params s) := by
  rw [startsImplicitParams_eq, startsImplicitParams_eq, Cursor.isAt, Cursor.isAt, paired.currentTag hlt] at hne
  have hbrace : s.cursor.currentTag = .lbrace := by
    by_contra h
    rw [beq_false_of_ne h] at hne
    exact hne rfl
  rw [hbrace, beq_self_eq_true, Bool.true_and, Bool.true_and] at hne
  cases hleft : followersOfBraces.any s.cursor.groupFollowedBy with
  | true =>
    rw [hleft, ne_eq, Bool.not_eq_true] at hne
    exact declParams_loosens_behind paired hlt hbrace hleft hne n
  | false =>
    rw [hleft, ne_eq, Bool.not_eq_false] at hne
    exact declParams_loosens_before paired hlt hbrace hleft hne n

end Turns

/-! ## What comes behind them -/

/-- A type does not, unless it is there at the index. -/
theorem Loose.optionalType [r.Forward] (h : w.Loose s) :
    w.Quits (Grammar.optionalType r s) ∨
      ∃ u, Grammar.optionalType r s = .ok none u ∧ w.Loose u ∧ u.cursor.currentTag = .lbrace := by
  cases hset : (TagSet.single .colon).contains s.cursor.currentTag with
  | true =>
    cases h with
    | before _ hbrace =>
      rw [hbrace] at hset
      cases hset
    | behind _ heq =>
      unfold Grammar.optionalType optionally accept
      rw [check_eq_checkSet, bind_assoc, bind_of_ok (checkSet_of_mem hset), if_pos rfl]
      have hend : s.cursor.isAtEnd = false := isAtEnd_eq_false (TagSet.eq_of_contains_single hset) (by decide)
      exact .inl (Quits.of_entered (Entered.advance hend) (Nat.le_of_eq heq.symm)).bind.bind
  | false =>
    have hrun : Grammar.optionalType r s = .ok none (s.noted (.single .colon)) := by
      unfold Grammar.optionalType optionally accept
      rw [check_eq_checkSet, bind_assoc, bind_of_ok (checkSet_of_not_mem hset)]
      rfl
    rw [TagSet.contains_single] at hset
    refine .inr ⟨_, hrun, ?_⟩
    cases h with
    | before rests hbrace hlt hends htag =>
      exact ⟨.before (rests.note fun heq => absurd heq (Nat.ne_of_lt hlt)) hbrace hlt hends htag, hbrace⟩
    | behind rests heq hmem htag =>
      have hbrace : s.cursor.currentTag = .lbrace := by
        simpa [(ne_of_beq_false hset).symm] using hmem
      refine ⟨.behind (rests.note fun _ => ?_) heq hmem htag, hbrace⟩
      exact TagSet.contains_single_of_ne fun e => htag (show w.spot.tag ∈ _ from e ▸ by decide)

/-- A body ends at the index, if it does not begin there. -/
theorem Loose.body {q : Parse α} [Enters (.single .lbrace) q] [hq : CalmOn w.spot [w.tag] (.single .lbrace) q]
    (h : w.Loose s) (hbrace : s.cursor.currentTag = .lbrace) : w.Wanders w.Adrift (q s) := by
  have hset : (TagSet.single .lbrace).contains s.cursor.currentTag = true := by rw [hbrace]; rfl
  cases h with
  | before rests _ hlt hends htag =>
    obtain hquits | ⟨a, s', hs, hle, rests', passes⟩ :=
      cases_of_calm (hq.calm s hset) rests fun _ => List.mem_singleton_self _
    · exact .inl hquits
    have hopening : (w.left.tagAt s.cursor.position).isOpening = true := by
      rw [← currentTag_of_rests rests, hbrace]
      rfl
    have hpast : s.cursor.position < s'.cursor.position := by
      have entered := (inferInstance : Enters (.single .lbrace) q).enters s hset
      rw [hs] at entered
      obtain hpast | ⟨_, ⟨⟩⟩ := entered
      exact hpast
    have heq : s'.cursor.position = w.index :=
      Nat.le_antisymm hle (hends.le_of_closes hopening hpast (by
        rw [show w.left = s.cursor.tokens from rests.tokens.symm]
        exact passes.closes))
    refine .inr ⟨a, s', hs, rests', hle, ?_, fun hlt => absurd heq (Nat.ne_of_lt hlt)⟩
    revert htag
    cases w.tag <;> decide
  | behind _ heq => exact .inl (quits_of_enters hset (Nat.le_of_eq heq.symm))

theorem optionally_of_brace {q : Parse α} (hbrace : s.cursor.currentTag = .lbrace) :
    optionally (check .lbrace) q s = (q >>= fun a => pure (some a)) s := by
  have hset : (TagSet.single .lbrace).contains s.cursor.currentTag = true := by rw [hbrace]; rfl
  rw [optionally, check_eq_checkSet, bind_of_ok (checkSet_of_mem hset)]
  rfl

/-! ## Signatures and clauses -/

section Named

variable [r.Calm w.spot] {e : Nat}

/-- A signature is read up to where the right list has the `=` of a clause. -/
theorem signatureDecl_drifts (paired : w.Paired s t)
    (hleads : Scan.Leads .clause 0 (w.upTo s.cursor.position) .clause 0)
    (htag : w.tag = .eq) : w.Wanders w.Adrift (signatureDecl r s) := by
  have calm : CalmFrom w.spot [.eq] (signatureDecl r) s := (inferInstance : Calm w.spot [.eq] (signatureDecl r)).calm s
  refine (cases_of_calm calm (paired.rests (l := some 0) fun _ => hleads.closes rfl (Nat.le_refl 0)) fun _ => by
    rw [htag]
    exact List.mem_singleton_self _).imp_right ?_
  rintro ⟨kind, s', hs, hle, rests, passes⟩
  refine ⟨kind, s', hs, rests, hle, by rw [htag]; rfl, fun hlt => ?_⟩
  -- the line goes on up to the index
  obtain ⟨heof, hsettles⟩ := unsettled rfl (leads_of_passes rfl hleads paired.left passes hle) rests hlt
  revert heof hsettles
  cases s'.cursor.currentTag <;> decide

/-- What stands before no `=` of a clause. -/
def endsClause : List Tag := [.newline, .lbrace, .rparen, .rbracket, .rbrace]

instance : OffPatterns endsClause := ⟨by decide⟩
instance : TagSet.Beside endsClause (.single .eq) := ⟨by decide⟩

omit [r.Calm w.spot] in
/-- Up to the `=` of a clause the left run asks for nothing of the kind. -/
theorem clauseDecl_quits [r.Forward] (paired : w.Paired s t)
    (hleads : Scan.Leads .clause 0 (w.upTo s.cursor.position) .clause e)
    (htag : e = 0 ∧ w.tag ∈ endsClause ∨ w.tag = .eof) : w.Quits (clauseDecl r s) := by
  obtain ⟨l, hlevel, hl⟩ : ∃ l, w.spot.Level l s.cursor.position ∧ (l = some 0 → w.tag ∈ endsClause) := by
    obtain ⟨rfl, htag⟩ | heof := htag
    · exact ⟨some 0, fun _ => hleads.closes rfl (Nat.le_refl 0), fun _ => htag⟩
    · exact ⟨none, .inl heof, fun h => by cases h⟩
  have name : CalmFrom w.spot endsClause path s := (inferInstance : Calm w.spot endsClause path).calm s
  unfold clauseDecl
  obtain hquits | ⟨name, s₁, hs₁, -, rests₁, passes₁⟩ := cases_of_calm name (paired.rests hlevel) hl
  · exact hquits.bind
  rw [bind_of_ok hs₁]
  have row : CalmFrom w.spot endsClause (many (optionally (isBefore .eq) atom)) s₁ :=
    (inferInstance : Calm w.spot endsClause (many (optionally (isBefore .eq) atom))).calm s₁
  obtain hquits | ⟨patterns, s₂, hs₂, hle, rests₂, passes₂⟩ := cases_of_calm row rests₁ hl
  · exact hquits.bind
  rw [bind_of_ok hs₂]
  have hat := many_isBefore hs₂
  have hend : s₂.cursor.isAtEnd = false := isAtEnd_eq_false hat (by decide)
  refine Quits.bind (.of_entered (Entered.advance hend) (Nat.le_of_not_lt fun hlt => ?_))
  -- an `=` before the index would have been seen
  have hbehind := leads_of_passes rfl hleads paired.left (passes₁.trans passes₂) hle
  have hsettles := (unsettled rfl hbehind rests₂ hlt).2
  rw [hat] at hsettles
  cases hsettles

/-- Where the two lists differ in whether the line is a clause, the left run drifts. -/
theorem namedDecl_drifts [r.Forward] (paired : w.Paired s t) (hne : isClauseLine t.cursor ≠ isClauseLine s.cursor) :
    w.Wanders w.Adrift (namedDecl r s) := by
  have hrun : namedDecl r s =
      (if isClauseLine s.cursor = true then clauseDecl r else signatureDecl r : Parse DeclKind) s :=
    rfl
  obtain ⟨e, hleads, ⟨hfalse, rfl, htag⟩ | ⟨htrue, hends⟩⟩ := paired.clause_split hne
  · rw [hrun, hfalse]
    exact signatureDecl_drifts paired hleads htag
  · rw [hrun, htrue]
    exact .inl (clauseDecl_quits paired hleads hends)

end Named

end SolSyntax.Fork
