import SolSyntax.Proofs.ForkAdrift
import SolSyntax.Proofs.ForkBlocks

/-!
# Declarations on two token lists

Declarations do the same on the two lists of a `Fork` up to the index; one that ends its line there may be
read by one run alone.  Behind a visibility some of what was asked for before it is refused.

Principal results: `declKind_meets`, `attributed_meets`, `declLine_meets` — how two runs read a declaration.
-/

-- instances are long terms, as productions have many steps
set_option synthInstance.maxSize 2000

namespace SolSyntax.Fork

open Grammar Parse

variable {w : Fork} {s t : State} {stops : Stops} {r r' : Rules} [r.Forward] [r'.Forward] [r.Enters]
  [r'.Enters] [SideRules w r r']

/-! ## Attributes and visibilities -/

instance {p q : Parse ExprId} [Forward p] [Forward q] [Sides w p q] :
    Ends w stops (optionalArgs p) (optionalArgs q) := by
  have : Sides w (bracketed .rparen p >>= fun found => pure found.items)
      (bracketed .rparen q >>= fun found => pure found.items) := Sides.bind fun _ _ _ => inferInstance
  have : Ends w stops (bracketed .rparen p >>= fun found => pure found.items)
      (bracketed .rparen q >>= fun found => pure found.items) := Sides.bind fun _ _ _ => inferInstance
  unfold optionalArgs
  infer_instance

instance : Ends w stops (attr r) (attr r') := by unfold attr; infer_instance

/-- What begins a doc-string or an attribute. -/
def attachmentStart : TagSet := .ofList [.docString, .atSign]

omit [SideRules w r r'] [r'.Forward] [r'.Enters] [r.Enters] in
theorem attachmentOf_enters (token : Token) (h : attachmentStart.contains token.tag = true) :
    Enters (.single token.tag) (attachmentOf r token) := by
  have : (TagSet.single token.tag).Inner := .single fun e => by rw [e] at h; cases h
  obtain ⟨kind, _, _⟩ := token
  unfold attachmentOf attr
  cases kind <;> simp only [Token.tag, TokenKind.tag] at h <;>
    first
    | infer_instance
    | exact absurd h (by decide)

instance : Enters attachmentStart (attachment r) := by
  unfold attachment
  exact Enters.of_current attachmentOf_enters

omit [SideRules w r r'] [r'.Forward] [r'.Enters] [r.Forward] [r.Enters] in
theorem attachmentOf_eq_none {token : Token} (h : attachmentStart.contains token.tag = false) :
    attachmentOf r token = pure none := by
  obtain ⟨kind, _, _⟩ := token
  cases kind <;> simp only [Token.tag, TokenKind.tag] at h <;>
    first
    | rfl
    | exact absurd h (by decide)

instance : Ends w stops (attachment r) (attachment r') := by
  have hleft : Enters attachmentStart (attachment r) := inferInstance
  have hright : Enters attachmentStart (attachment r') := inferInstance
  unfold attachment at *
  refine ⟨fun s t paired => dispatch_meets attachmentStart (fun token => ?_) paired fun _ hs ht => ?_⟩
  · unfold attachmentOf
    cases token.kind <;> infer_instance
  · rw [attachmentOf_eq_none hs, attachmentOf_eq_none ht]
    exact .both rfl rfl paired ⟨.none⟩

theorem isEmpty_collect (attachments : List Attachment) :
    (Attachment.collect attachments).isEmpty = attachments.isEmpty := by
  cases attachments with
  | nil => rfl
  | cons a as => cases a <;> simp [Attachment.collect, Attributes.isEmpty]

instance : Ends w stops (attributes r) (attributes r') := by
  unfold attributes
  refine Sides.bind fun as bs has => ?_
  have : Alike (Attachment.collect as) (Attachment.collect bs) :=
    ⟨(isEmpty_collect as).trans (has.isEmpty_eq.trans (isEmpty_collect bs).symm)⟩
  infer_instance

omit [SideRules w r r'] [r'.Forward] [r'.Enters] [r.Forward] [r.Enters] in
theorem attachmentOf_ne_none {token : Token} (h : attachmentStart.contains token.tag = true) :
    attachmentOf r token s ≠ .ok none t := by
  intro hrun
  obtain ⟨kind, _, _⟩ := token
  cases kind <;> simp only [Token.tag, TokenKind.tag] at h <;>
    first
    | exact absurd h (by decide)
    | simp only [attachmentOf, bind_eq_ok] at hrun
      obtain ⟨_, _, -, _, _, -, hrun⟩ := hrun
      cases hrun

omit [SideRules w r r'] [r'.Forward] [r'.Enters] [r.Forward] [r.Enters] in
/-- Behind all attributes there is no other. -/
theorem attributes_stop {attrs : Attributes} (h : attributes r s = .ok attrs t) :
    attachmentStart.contains t.cursor.currentTag = false := by
  unfold attributes many at h
  obtain ⟨items, s₁, h₁, h⟩ := bind_eq_ok.1 h
  obtain ⟨found, s₂, h₂, h₁⟩ := bind_eq_ok.1 h₁
  cases h₁
  cases h
  refine repeating_invariant (I := fun _ _ => True)
    (Q := fun _ u => attachmentStart.contains u.cursor.currentTag = false) ?_ trivial h₂
  intro items u step v _ hturn
  unfold manyTurn at hturn
  obtain ⟨o, u₁, ho, hturn⟩ := bind_eq_ok.1 hturn
  cases o with
  | some a =>
    cases hturn
    trivial
  | none =>
    cases hturn
    have ho : attachmentOf r u.cursor.current u = .ok none v := ho
    cases hstart : attachmentStart.contains u.cursor.current.tag with
    | true => exact absurd ho (attachmentOf_ne_none hstart)
    | false =>
      rw [attachmentOf_eq_none hstart] at ho
      cases ho
      rwa [currentTag_eq_tag]

/-! ## Forms of declarations -/

omit [SideRules w r r'] [r'.Forward] [r'.Enters] [r.Enters] [r.Forward] in
/-- Whether a list of parameters comes next is answered alike, or a yes is given at the index. -/
theorem startsDeclParams_cases (paired : w.Paired s t)
    (hsame : s.cursor.position < w.index → startsImplicitParams t.cursor = startsImplicitParams s.cursor) :
    (∃ c s' t', startsDeclParams s = .ok c s' ∧ startsDeclParams t = .ok c t' ∧ w.Paired s' t') ∨
      s.cursor.position = w.index ∧ ((∃ s', startsDeclParams s = .ok true s') ∨
        ∃ t', startsDeclParams t = .ok true t') := by
  have hleft := startsDeclParams_eq s
  have hright := startsDeclParams_eq t
  rcases Nat.lt_or_eq_of_le paired.le with hlt | heq
  · rw [paired.currentTag hlt, hsame hlt] at hright
    have hnever {set : TagSet} (heq : s.cursor.position = w.index) : set.contains w.tag = false :=
      absurd heq (Nat.ne_of_lt hlt)
    split at hleft
    · rw [if_pos ‹_›] at hright
      exact .inl ⟨_, _, _, hleft, hright, paired⟩
    rw [if_neg ‹_›] at hright
    split at hleft
    · rw [if_pos ‹_›] at hright
      exact .inl ⟨_, _, _, hleft, hright, paired.note hnever⟩
    · rw [if_neg ‹_›] at hright
      exact .inl ⟨_, _, _, hleft, hright, (paired.note hnever).note hnever⟩
  · have asked {u : State} (hrun : startsDeclParams u = if u.cursor.currentTag = .lparen then .ok true u
        else if u.cursor.currentTag = .lbracket then .ok true (u.noted (.single .lparen))
        else .ok (startsImplicitParams u.cursor) ((u.noted (.single .lparen)).noted (.single .lbracket))) :
        (∃ u', startsDeclParams u = .ok true u') ∨ (u.cursor.currentTag ≠ .lparen ∧ u.cursor.currentTag ≠ .lbracket) ∧
          startsDeclParams u = .ok false ((u.noted (.single .lparen)).noted (.single .lbracket)) := by
      split at hrun
      · exact .inl ⟨_, hrun⟩
      split at hrun
      · exact .inl ⟨_, hrun⟩
      · cases hstarts : startsImplicitParams u.cursor with
        | true => exact .inl ⟨_, hstarts ▸ hrun⟩
        | false => exact .inr ⟨⟨‹_›, ‹_›⟩, hstarts ▸ hrun⟩
    obtain hyes | ⟨-, hleft⟩ := asked hleft
    · exact .inr ⟨heq, .inl hyes⟩
    obtain hyes | ⟨⟨hparen, hbracket⟩, hright⟩ := asked hright
    · exact .inr ⟨heq, .inr hyes⟩
    rw [paired.currentTag_right heq] at hparen hbracket
    exact .inl ⟨_, _, _, hleft, hright,
      (paired.note fun _ => TagSet.contains_single_of_ne hparen).note fun _ => TagSet.contains_single_of_ne hbracket⟩

section Declared

variable [r.Calm w.spot]

omit [r'.Enters] in
/-- Where the two lists differ in whether braces hold parameters, the left run goes astray. -/
theorem declParams_meets (paired : w.Paired s t) :
    w.Meets (.straying w.Loose) SameWay (declParams r s) (declParams r' t) := by
  have hloop : w.Meets (.straying w.Loose) SameWay
      (repeating (manyTurn (optionally startsDeclParams (paramSet r))) [] s)
      (repeating (manyTurn (optionally startsDeclParams (paramSet r'))) [] t) := by
    refine turns_meet (Y := SameWay) (fun a b s t paired hab => ?_) _ _ _ _ _ _ paired ⟨.nil⟩
    by_cases hsame : s.cursor.position < w.index → startsImplicitParams t.cursor = startsImplicitParams s.cursor
    · refine .inl ?_
      have : Alike a b := hab
      obtain ⟨c, s', t', hs, ht, paired'⟩ | ⟨heq, ⟨s', hs⟩ | ⟨t', ht⟩⟩ := startsDeclParams_cases paired hsame
      · cases c with
        | true =>
          rw [declTurn_true hs, declTurn_true ht]
          refine (Ends.meets s' t' paired').bind fun set set' s₂ t₂ paired₂ (_ : Alike set set') => ?_
          exact .both rfl rfl paired₂ (inferInstance : Alike (set :: a) (set' :: b))
        | false =>
          rw [declTurn_false hs, declTurn_false ht]
          exact .both rfl rfl paired' hab
      · obtain ⟨hset, hposition⟩ := Finds.there hs
        rw [declTurn_true hs]
        exact .quits (quits_of_enters hset (Nat.le_of_eq (hposition.trans heq).symm)).bind
      · obtain ⟨hset, hposition⟩ := Finds.there ht
        rw [declTurn_true ht]
        have entered := (inferInstance : Enters .paramListStart (paramSet r')).enters t' hset
        exact .gone (Gone.of_entered entered (Nat.le_of_eq (hposition.trans (paired.position.trans heq)).symm)).bind
    · obtain ⟨hlt, hne⟩ := Classical.not_imp.1 hsame
      exact .inr (.inr (declParams_loosens paired hlt hne))
  exact hloop.follow (fun _ _ => ⟨_, rfl⟩) fun a b _ _ _ (_ : Alike a b) =>
    ⟨_, _, rfl, rfl, (inferInstance : Alike a.reverse b.reverse)⟩

instance : Ends w stops usingDecl usingDecl := by unfold usingDecl; infer_instance

instance : Ends w stops (constructorKind r) (constructorKind r') := by unfold constructorKind; infer_instance

instance : Ends w stops (constructor r) (constructor r') := by unfold constructor; infer_instance

/-- Where a declaration may end in one run alone: at the end of the line, or adrift. -/
abbrev lineEnds (w : Fork) : Stops := ⟨lineStops, w.Adrift⟩

instance : Ends w w.lineEnds (inductiveDecl r) (inductiveDecl r') := by
  unfold inductiveDecl
  refine Sides.bind fun _ _ _ => Sides.bind fun name name' _ => ⟨fun s t paired => ?_⟩
  refine (declParams_meets paired).bind_astray (fun params params' s' t' paired' _ => ?_) fun params s' loose => ?_
  · exact Ends.meets s' t' paired'
  · obtain hquits | ⟨u, hu, loose, hbrace⟩ := loose.optionalType (r := r)
    · exact .inl hquits.bind
    · rw [bind_of_ok hu]
      exact (loose.body hbrace).bind fun _ _ adrift => .inr ⟨_, _, rfl, adrift⟩

instance : Ends w w.lineEnds (signatureDecl r) (signatureDecl r') := by
  unfold signatureDecl
  refine Sides.bind fun name name' _ => ⟨fun s t paired => ?_⟩
  refine (declParams_meets paired).bind_astray (fun params params' s' t' paired' _ => ?_) fun params s' loose => ?_
  · exact Ends.meets s' t' paired'
  · obtain hquits | ⟨u, hu, loose, hbrace⟩ := loose.optionalType (r := r)
    · exact .inl hquits.bind
    · have body : w.Wanders w.Adrift (optionally (check .lbrace) r.block u) := by
        rw [optionally_of_brace hbrace]
        exact (loose.body hbrace).bind fun _ _ adrift => .inr ⟨_, _, rfl, adrift⟩
      rw [bind_of_ok hu]
      exact body.bind fun _ _ adrift => .inr ⟨_, _, rfl, adrift⟩

/-- Where the line ends, this does, and goes on otherwise. -/
theorem line_meets [Steers α] {p q : Parse α} [h : Ends w w.lineEnds p q] (paired : w.Paired s t) {a b : α}
    (hab : Alike a b) :
    w.Meets w.lineEnds SameWay (if endsLine s.cursor = true then .ok a s else p s)
      (if endsLine t.cursor = true then .ok b t else q t) := by
  rw [endsLine_eq, endsLine_eq]
  rcases Nat.lt_or_eq_of_le paired.le with hlt | heq
  · rw [paired.currentTag hlt]
    split
    · exact .both rfl rfl paired hab
    · exact h.meets s t paired
  · rw [paired.currentTag_left heq, paired.currentTag_right heq]
    cases hs : lineStops.contains w.found with
    | true => exact .left rfl paired hab heq hs
    | false =>
      cases ht : lineStops.contains w.tag with
      | true => exact .right rfl paired hab heq ht hs
      | false => exact h.meets s t paired

instance : Ends w stops (commandArgs r) (commandArgs r') := by unfold commandArgs; infer_instance

instance : Ends w w.lineEnds (lineArgs r) (lineArgs r') := by
  have run (r : Rules) (s : State) :
      lineArgs r s = if endsLine s.cursor = true then .ok [] s else commandArgs r s := by
    show (if endsLine s.cursor = true then pure [] else commandArgs r) s = _
    split <;> rfl
  refine ⟨fun s t paired => ?_⟩
  rw [run, run]
  exact line_meets paired inferInstance

instance {p q : Parse ExprId} [Forward p] [Forward q] [Sides w p q] :
    Ends w w.lineEnds (optionally (look continuesLine) p) (optionally (look continuesLine) q) := by
  have run (p : Parse ExprId) (s : State) : optionally (look continuesLine) p s =
      if endsLine s.cursor = true then .ok none s else (p >>= fun a => pure (some a)) s := by
    show (if (!endsLine s.cursor) = true then p >>= fun a => pure (some a) else pure none) s = _
    cases endsLine s.cursor <;> rfl
  refine ⟨fun s t paired => ?_⟩
  rw [run, run]
  exact line_meets paired inferInstance

/-- What comes last in a declaration may end at the end of the line. -/
theorem Sides.follow [Steers α] [Steers β] {p q : Parse α} [h : Ends w stops p q] {f g : α → Parse β}
    [∀ a, Forward (f a)] [∀ b, Forward (g b)] (hf : ∀ a s, ∃ c, f a s = .ok c s)
    (hg : ∀ b t, ∃ d, g b t = .ok d t) (halike : ∀ c d : β, Alike c d) : Ends w stops (p >>= f) (q >>= g) :=
  ⟨fun s t paired => (h.meets s t paired).follow hf fun a b s' t' _ _ => by
    obtain ⟨c, hc⟩ := hf a s'
    obtain ⟨d, hd⟩ := hg b t'
    exact ⟨c, d, hc, hd, halike c d⟩⟩

instance : Ends w w.lineEnds (commandDecl r) (commandDecl r') := by
  unfold commandDecl
  refine Sides.bind fun _ _ _ => Sides.bind fun name name' _ => Sides.follow ?_ ?_ fun _ _ => inferInstance
  · exact fun _ _ => ⟨_, rfl⟩
  · exact fun _ _ => ⟨_, rfl⟩

omit [r.Enters] [r'.Enters] [r.Calm w.spot] in
/-- The value of a clause, behind its patterns. -/
theorem clauseValue_ends (name name' : Path) (patterns patterns' : List PatternId) :
    Ends w w.lineEnds
      (advance >>= fun _ => optionally (look continuesLine) (within .clauseValue r.value) >>= fun value =>
        pure (DeclKind.clause name patterns value))
      (advance >>= fun _ => optionally (look continuesLine) (within .clauseValue r'.value) >>= fun value =>
        pure (DeclKind.clause name' patterns' value)) := by
  refine Sides.bind fun _ _ _ => Sides.follow ?_ ?_ fun _ _ => inferInstance
  · exact fun _ _ => ⟨_, rfl⟩
  · exact fun _ _ => ⟨_, rfl⟩

instance : Ends w w.lineEnds (clauseDecl r) (clauseDecl r') := by
  unfold clauseDecl
  refine Sides.bind fun name name' _ => ⟨fun s t paired => ?_⟩
  refine (row_meets paired).bind_stop ?_ ?_ ?_ fun _ _ => False.elim
  · exact fun patterns patterns' s' t' paired' _ =>
      (clauseValue_ends name name' patterns patterns').meets s' t' paired'
  · exact fun _ _ s' t' paired' _ heq hstop => paired'.quits heq hstop
  · exact fun _ _ s' t' paired' _ heq hstop _ => paired'.gone heq hstop

instance : Before w w.lineEnds (namedDecl r) (namedDecl r') := by
  refine ⟨fun s t paired hlt => ?_⟩
  have run (r : Rules) (s : State) :
      namedDecl r s = (if isClauseLine s.cursor = true then clauseDecl r else signatureDecl r : Parse DeclKind) s :=
    rfl
  by_cases hsame : isClauseLine t.cursor = isClauseLine s.cursor
  · rw [run, run, hsame]
    exact Ends.meets s t paired
  · exact (namedDecl_drifts paired hsame).meets

/-! ## Kinds of declarations -/

/-- What begins a declaration behind a visibility. -/
def kindStart : TagSet := .ofList [.ident, .symbol, .kwUsing, .kwInductive, .hash]

omit [SideRules w r r'] [r'.Forward] [r'.Enters] [r.Enters] in
theorem declKindOf_enters (tag : Tag) (h : kindStart.contains tag = true) :
    Enters (.single tag) (declKindOf r tag) := by
  have : (TagSet.single tag).Inner := .single fun e => by rw [e] at h; cases h
  have named : Enters .identStart (namedDecl r) := by
    unfold namedDecl clauseDecl signatureDecl
    infer_instance
  unfold declKindOf usingDecl commandDecl inductiveDecl
  split
  · infer_instance
  · infer_instance
  · infer_instance
  · exact named.of_mem rfl
  · exact named.of_mem rfl
  · exfalso
    revert h
    cases tag <;> first | contradiction | decide

omit [SideRules w r r'] [r'.Forward] [r'.Enters] [r.Enters] [r.Forward] in
theorem declKindOf_eq_failWanting {tag : Tag} (h : kindStart.contains tag = false) :
    declKindOf r tag = failWanting .declStart .expectedDeclaration := by
  cases tag <;> first | rfl | exact absurd h (by decide)

omit [SideRules w r r'] [r'.Forward] [r'.Enters] [r.Enters] [r.Forward] in
theorem declKind_eq : declKind r = current >>= fun token => declKindOf r token.tag := by
  funext s
  show declKindOf r s.cursor.currentTag s = declKindOf r s.cursor.current.tag s
  rw [currentTag_eq_tag]

instance : Enters kindStart (declKind r) := by
  rw [declKind_eq]
  exact Enters.of_current fun token h => declKindOf_enters token.tag h

instance (tag : Tag) : Before w w.lineEnds (declKindOf r tag) (declKindOf r' tag) := by
  unfold declKindOf
  cases tag <;> infer_instance

omit [r.Enters] [r.Calm w.spot] in
/-- Where the token at the index has not been asked for, what is no declaration is of no interest. -/
theorem declKind_quits (paired : w.Paired s t) (heq : s.cursor.position = w.index)
    (htag : TagSet.declStart.contains w.tag = false) : w.Quits (declKind r s) := by
  cases hfound : kindStart.contains w.found with
  | true => exact paired.quits heq hfound
  | false =>
    rw [← paired.currentTag_left heq, currentTag_eq_tag] at hfound
    have hs : declKind r s = failWanting .declStart .expectedDeclaration s := by
      rw [declKind_eq, ← declKindOf_eq_failWanting (r := r) hfound]
      rfl
    rw [hs]
    exact paired.quits_failWanting _ fun _ => htag

/-- Where a declaration is asked for at the index, a visibility stands before it, or the right list does not
have there what only stands before a visibility. -/
def BehindVisibility (w : Fork) (s : State) : Prop :=
  s.cursor.position = w.index →
    (∃ j, j + 1 = w.index ∧ (w.left.tagAt j).isVisibility = true) ∨ beforeVisibility.contains w.tag = false

theorem declKind_meets (paired : w.Paired s t) (h : BehindVisibility w s) :
    w.Meets w.lineEnds SameWay (declKind r s) (declKind r' t) := by
  have hleft : Enters kindStart (declKind r) := inferInstance
  have hright : Enters kindStart (declKind r') := inferInstance
  simp only [declKind_eq] at hleft hright ⊢
  refine dispatch_meets kindStart (fun token => inferInstance) paired fun heq hs ht => ?_
  rw [declKindOf_eq_failWanting hs, declKindOf_eq_failWanting ht]
  rw [← currentTag_eq_tag, paired.currentTag_right heq] at ht
  cases htag : TagSet.declStart.contains w.tag with
  | false => exact .quits (paired.quits_failWanting _ fun _ => htag)
  | true =>
    have hbefore : beforeVisibility.contains w.tag = true := by
      revert htag ht
      cases w.tag <;> decide
    obtain ⟨j, hj, hvisibility⟩ := (h heq).resolve_right (by rw [hbefore]; exact nofun)
    refine .gone (.inr (.visibility (paired.position.trans heq) ?_ hj hvisibility hbefore))
    rw [← paired.currentTag_right heq]
    exact says_complain (t.cursor.note _) _

/-! ## Declarations -/

omit [SideRules w r r'] [r'.Forward] [r'.Enters] [r.Enters] [r.Calm w.spot] in
/-- A visibility is taken. -/
theorem attributed_past {start : Span} {attrs : Attributes} (h : s.cursor.currentTag.isVisibility = true)
    (hle : w.index ≤ s.cursor.position) :
    w.index < (final (attributed r start attrs s)).cursor.position := by
  obtain ⟨v, -, hs⟩ | ⟨hno, -⟩ := visibility_cases s
  · unfold attributed
    rw [bind_of_ok hs]
    have onward := (inferInstance : Forward (declKind r >>= fun kind => spanFrom start >>= fun span =>
      pure (Decl.mk attrs (some v) kind span))).onward (s.moved (s.cursor.position + 1))
    exact Nat.lt_of_lt_of_le (Nat.lt_succ_of_le hle) onward.cursor.position
  · rw [h] at hno
    cases hno

omit [r.Enters] [r.Calm w.spot] in
theorem attributed_quits {start : Span} {attrs : Attributes} (paired : w.Paired s t)
    (heq : s.cursor.position = w.index) (htag : TagSet.declStart.contains w.tag = false) :
    w.Quits (attributed r start attrs s) := by
  obtain ⟨v, hv, -⟩ | ⟨-, hs⟩ := visibility_cases s
  · exact .of_past (attributed_past hv (Nat.le_of_eq heq.symm))
  · unfold attributed
    rw [bind_of_ok hs]
    exact (declKind_quits paired heq htag).bind

theorem attributed_meets {start start' : Span} {attrs attrs' : Attributes} (paired : w.Paired s t)
    (h : s.cursor.position = w.index → attachmentStart.contains w.tag = false) :
    w.Meets w.lineEnds SameWay (attributed r start attrs s) (attributed r' start' attrs' t) := by
  have rest {s t : State} (v v' : Option Visibility) (paired : w.Paired s t) (h : BehindVisibility w s) :
      w.Meets w.lineEnds SameWay
        ((declKind r >>= fun kind => spanFrom start >>= fun span => pure (Decl.mk attrs v kind span)) s)
        ((declKind r' >>= fun kind => spanFrom start' >>= fun span => pure (Decl.mk attrs' v' kind span)) t) :=
    (declKind_meets paired h).follow (fun _ _ => ⟨_, rfl⟩)
      fun kind kind' s' t' _ _ => ⟨_, _, rfl, rfl, (inferInstance : Alike _ _)⟩
  rcases Nat.lt_or_eq_of_le paired.le with hlt | heq
  · have htag := paired.currentTag hlt
    unfold attributed
    obtain ⟨v, hv, hs⟩ | ⟨hv, hs⟩ := visibility_cases s
    · obtain ⟨v', -, ht⟩ | ⟨hv', -⟩ := visibility_cases t
      · rw [bind_of_ok hs, bind_of_ok ht, paired.position]
        refine rest _ _ (paired.move (Nat.le_succ _) hlt) fun heq => .inl ⟨_, heq, ?_⟩
        rwa [Cursor.currentTag, Cursor.tagAt, paired.left] at hv
      · rw [htag, hv] at hv'
        cases hv'
    · obtain ⟨v', hv', -⟩ | ⟨-, ht⟩ := visibility_cases t
      · rw [htag, hv] at hv'
        cases hv'
      · rw [bind_of_ok hs, bind_of_ok ht]
        exact rest _ _ paired fun heq => absurd heq (Nat.ne_of_lt hlt)
  · obtain ⟨v, hv, -⟩ | ⟨-, hs⟩ := visibility_cases s
    · exact .quits (.of_past (attributed_past hv (Nat.le_of_eq heq.symm)))
    · obtain ⟨v, hv, -⟩ | ⟨hv, ht⟩ := visibility_cases t
      · exact .gone (.of_past (attributed_past hv (Nat.le_of_eq (paired.position.trans heq).symm)))
      · unfold attributed
        rw [bind_of_ok hs, bind_of_ok ht]
        refine rest _ _ paired fun heq => .inr ?_
        rw [paired.currentTag_right heq] at hv
        have hno := h heq
        revert hv hno
        cases w.tag <;> decide

instance : Ends w w.lineEnds (decl r) (decl r') := by
  unfold decl
  refine Sides.bind fun start start' _ => ⟨fun s t paired => ?_⟩
  have hattrs : w.Meets .none
      (fun attrs attrs' _ t => Alike attrs attrs' ∧ attachmentStart.contains t.cursor.currentTag = false)
      (attributes r s) (attributes r' t) :=
    (Ends.meets s t paired).mono fun _ _ _ _ _ ht _ halike => ⟨halike, attributes_stop ht⟩
  refine hattrs.bind fun attrs attrs' s' t' paired' hends => ?_
  obtain ⟨⟨halike⟩, hstop⟩ := hends
  have run (r : Rules) (attrs : Attributes) (start : Span) (s : State) :
      (look (isDangling attrs) >>= fun c => if c = true then fail .danglingAttributes else attributed r start attrs) s =
        (if isDangling attrs s.cursor = true then fail .danglingAttributes
          else attributed r start attrs : Parse Decl) s :=
    rfl
  rw [run, run]
  by_cases hs : isDangling attrs s'.cursor = true
  · rw [if_pos hs]
    exact .quits paired'.fresh
  rw [if_neg hs]
  by_cases ht : isDangling attrs' t'.cursor = true
  · rw [if_pos ht]
    -- the right list ends at the index, and a declaration asks for something else
    rw [isDangling, ← (show attrs.isEmpty = attrs'.isEmpty from halike)] at ht
    rcases Nat.lt_or_eq_of_le paired'.le with hlt | heq
    · rw [isDangling, Cursor.isAtEnd, Cursor.isAt, ← paired'.currentTag hlt] at hs
      exact absurd ht hs
    · rw [Bool.and_eq_true, Cursor.isAtEnd, Cursor.isAt, paired'.currentTag_right heq] at ht
      exact .quits (attributed_quits paired' heq (by rw [eq_of_beq ht.2]; rfl))
  · rw [if_neg ht]
    exact attributed_meets paired' fun heq => paired'.currentTag_right heq ▸ hstop

/-! ## Lines -/

/-- How two runs read a line: as any step, but where the line ends at the index, one may have ended alone. -/
inductive LineMeets (w : Fork) (r r' : EStateM.Result Failure State α) : Prop
  | quits : w.Quits r → LineMeets w r r'
  | gone : w.Gone r' → LineMeets w r r'
  | both {a b s t} : r = .ok a s → r' = .ok b t → w.Paired s t → LineMeets w r r'
  | left {a s} : r = .ok a s → s.cursor.tokens = w.left → s.cursor.position = w.index →
      lineStops.contains w.found = true → LineMeets w r r'
  | right {b t} : r' = .ok b t → t.cursor.tokens = w.right → t.cursor.position = w.index →
      lineStops.contains w.tag = true → LineMeets w r r'

/-- At the end of a line nothing is taken. -/
theorem lineEnd_meets (paired : w.Paired s t) : LineMeets w (lineEnd s) (lineEnd t) := by
  have stops {tag : Tag} (htag : lineStops.contains tag = true) {s s' : State} (h : check tag s = .ok true s') :
      (s'.cursor.tokens = s.cursor.tokens ∧ s'.cursor.position = s.cursor.position) ∧
        lineStops.contains s.cursor.currentTag = true := by
    obtain ⟨m, hat⟩ := check_ok h
    exact ⟨⟨m.tokens, m.position⟩, by rwa [eq_of_beq hat.symm]⟩
  have left {s s' t : State} (paired : w.Paired s t) (heq : s.cursor.position = w.index) {tag : Tag}
      (htag : lineStops.contains tag = true) (h : check tag s = .ok true s') :
      s'.cursor.tokens = w.left ∧ s'.cursor.position = w.index ∧ lineStops.contains w.found = true := by
    obtain ⟨⟨htokens, hposition⟩, hstop⟩ := stops htag h
    exact ⟨htokens.trans paired.left, hposition.trans heq, paired.currentTag_left heq ▸ hstop⟩
  have right {s t t' : State} (paired : w.Paired s t) (heq : s.cursor.position = w.index) {tag : Tag}
      (htag : lineStops.contains tag = true) (h : check tag t = .ok true t') :
      t'.cursor.tokens = w.right ∧ t'.cursor.position = w.index ∧ lineStops.contains w.tag = true := by
    obtain ⟨⟨htokens, hposition⟩, hstop⟩ := stops htag h
    exact ⟨htokens.trans paired.right, hposition.trans (paired.position.trans heq),
      paired.currentTag_right heq ▸ hstop⟩
  unfold lineEnd
  obtain ⟨c, s₁, t₁, hs, ht, paired₁⟩ | ⟨heq, ⟨s₁, hs⟩ | ⟨t₁, ht⟩⟩ :=
    (inferInstance : Tests w (check .newline) _).tests s t paired
  · rw [bind_of_ok hs, bind_of_ok ht]
    cases c with
    | true => exact .both rfl rfl paired₁
    | false =>
      obtain ⟨c, s₂, t₂, hs, ht, paired₂⟩ | ⟨heq, ⟨s₂, hs⟩ | ⟨t₂, ht⟩⟩ :=
        (inferInstance : Tests w (check .eof) _).tests s₁ t₁ paired₁
      · simp only [Bool.false_eq_true, if_false, bind_of_ok hs, bind_of_ok ht]
        cases c with
        | true => exact .both rfl rfl paired₂
        | false => exact .quits paired₂.fresh
      · obtain ⟨htokens, hposition, hstop⟩ := left paired₁ heq rfl hs
        exact .left (bind_of_ok hs) htokens hposition hstop
      · obtain ⟨htokens, hposition, hstop⟩ := right paired₁ heq rfl ht
        exact .right (bind_of_ok ht) htokens hposition hstop
  · obtain ⟨htokens, hposition, hstop⟩ := left paired heq rfl hs
    exact .left (bind_of_ok hs) htokens hposition hstop
  · obtain ⟨htokens, hposition, hstop⟩ := right paired heq rfl ht
    exact .right (bind_of_ok ht) htokens hposition hstop

theorem LineMeets.map {p q : Parse α} (h : LineMeets w (p s) (q t)) (f g : α → β) :
    LineMeets w ((p >>= fun a => pure (f a)) s) ((q >>= fun b => pure (g b)) t) := by
  cases h with
  | quits h => exact .quits h.bind
  | gone h => exact .gone h.bind
  | both hs ht paired => exact .both (bind_of_ok hs) (bind_of_ok ht) paired
  | left hs htokens heq hstop => exact .left (bind_of_ok hs) htokens heq hstop
  | right ht htokens heq hstop => exact .right (bind_of_ok ht) htokens heq hstop

theorem declLine_meets (paired : w.Paired s t) : LineMeets w (declLine r s) (declLine r' t) := by
  have line {s s' : State} {d : Decl} (h : lineEnd s = .ok () s') :
      (lineEnd >>= fun _ => (pure d : Parse Decl)) s = .ok d s' := bind_of_ok h
  unfold declLine
  have hdecl : w.Meets w.lineEnds SameWay (decl r s) (decl r' t) := Ends.meets s t paired
  cases hdecl with
  | astray hs adrift =>
    rw [bind_of_ok hs]
    obtain hquits | ⟨hstop, s', hline, htokens, heq⟩ := adrift.lineEnd
    · exact .quits hquits.bind
    · exact .left (line hline) htokens heq hstop
  | quits h => exact .quits h.bind
  | gone h => exact .gone h.bind
  | both hs ht paired' =>
    rw [bind_of_ok hs, bind_of_ok ht]
    exact (lineEnd_meets paired').map _ _
  | left hs paired' _ heq hstop =>
    obtain ⟨s', hline, htokens, hposition⟩ := lineEnd_of_stop (paired'.currentTag_left heq ▸ hstop)
    exact .left ((bind_of_ok hs).trans (line hline)) (htokens.trans paired'.left) (hposition.trans heq) hstop
  | right ht paired' _ heq hstop =>
    obtain ⟨t', hline, htokens, hposition⟩ := lineEnd_of_stop (paired'.currentTag_right heq ▸ hstop)
    exact .right ((bind_of_ok ht).trans (line hline)) (htokens.trans paired'.right)
      (hposition.trans (paired'.position.trans heq)) hstop

end Declared

end SolSyntax.Fork
