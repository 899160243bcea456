import SolSyntax.Proofs.ForkSteps

/-!
# Rows and lists on two token lists

Loops of two runs on the two lists of a `Fork`.  One that goes on up to a stop may end at the index in one
run alone; whoever takes the stop afterwards gets past the index.

Principal results: `turns_meet` — what every turn keeps up, loops do; `row_meets`, `sequence_meets` — rows
and lists up to a stop; `Ends` instances for paths, rows and lists.
-/

-- instances are long terms, as productions have many steps
set_option synthInstance.maxSize 1000

namespace SolSyntax.Fork

open Grammar Parse

variable {w : Fork} {s t : State} {stops : Stops}

/-! ## Rows -/

/-- Both loops go on, or both end, with accumulators as they should be. -/
def Turn (Y : α → β → State → State → Prop) : ForInStep α → ForInStep β → State → State → Prop
  | .done a, .done b => Y a b
  | .yield a, .yield b => Y a b
  | _, _ => fun _ _ => False

/-- One of two loops ends alone at the index, with a stop there. -/
inductive Halts (w : Fork) (stops : Stops) (a : α) (b : β) (s t : State)
    (r : EStateM.Result Failure State (ForInStep α)) (r' : EStateM.Result Failure State (ForInStep β)) : Prop
  | left : s.cursor.position = w.index → stops.tags.contains w.found = true → r = .ok (.done a) s →
      Halts w stops a b s t r r'
  | right : s.cursor.position = w.index → stops.tags.contains w.tag = true → stops.tags.contains w.found = false →
      r' = .ok (.done b) t → Halts w stops a b s t r r'

/-- What every turn of two loops keeps up, the loops do.  The left one may go astray in one of its turns. -/
theorem turns_meet {body : α → Parse (ForInStep α)} {body' : β → Parse (ForInStep β)}
    {Y : α → β → State → State → Prop} [∀ a, Forward (body a)] [∀ b, Forward (body' b)]
    (hbody : ∀ a b s t, w.Paired s t → Y a b s t →
      w.Meets .none (Turn Y) (body a s) (body' b t) ∨ Halts w stops a b s t (body a s) (body' b t) ∨
        ∀ n, w.Wanders stops.astray (turns body (n + 1) a s))
    (n m : Nat) (a : α) (b : β) (s t : State) (paired : w.Paired s t) (hY : Y a b s t) :
    w.Meets stops Y (turns body n a s) (turns body' m b t) := by
  induction n generalizing m a b s t with
  | zero => exact .quits trivial
  | succ n ih =>
    cases m with
    | zero => exact .gone trivial
    | succ m =>
      have := Has.afterTurn fun b => (inferInstance : Has @Forward (turns body n b))
      have := Has.afterTurn fun b => (inferInstance : Has @Forward (turns body' m b))
      obtain h | hhalts | hwanders := hbody a b s t paired hY
      · unfold turns
        refine h.bind fun x y s' t' paired' hxy => ?_
        cases x with
        | done a' => cases y with
          | done b' => exact .both rfl rfl paired' hxy
          | yield b' => exact hxy.elim
        | yield a' => cases y with
          | done b' => exact hxy.elim
          | yield b' => exact ih m a' b' s' t' paired' hxy
      · unfold turns
        cases hhalts with
        | left heq hstop hs => exact .left (bind_of_ok hs) paired hY heq hstop
        | right heq hstop hne ht => exact .right (bind_of_ok ht) paired hY heq hstop hne
      · exact (hwanders n).meets

/-- A loop that ends with a turn. -/
theorem wanders_of_done {body : α → Parse (ForInStep α)} {P : State → Prop} {a : α}
    (h : ∃ c u, body a s = .ok (.done c) u ∧ P u) (n : Nat) : w.Wanders P (turns body (n + 1) a s) := by
  obtain ⟨c, u, hs, hP⟩ := h
  exact .inr ⟨c, u, bind_of_ok hs, hP⟩

/-- Two loops without stops. -/
theorem repeating_meet [Steers α] {body body' : α → Parse (ForInStep α)} [∀ a, Forward (body a)]
    [∀ b, Forward (body' b)] (hbody : ∀ a b, Alike a b → Sides w (body a) (body' b)) {a b : α} (h : Alike a b) :
    Ends w stops (repeating body a) (repeating body' b) := by
  refine ⟨fun s t paired => ?_⟩
  refine turns_meet (Y := SameWay) (fun a b s t paired hab => .inl ?_) _ _ _ _ _ _ paired h
  refine ((hbody a b hab).meets s t paired).mono fun x y s t _ _ _ hxy => ?_
  obtain ⟨hxy⟩ := hxy
  cases x <;> cases y <;> first | exact ⟨hxy⟩ | exact hxy

instance [Steers α] [Steers.Exact α] {body body' : α → Parse (ForInStep α)} [∀ a, Forward (body a)]
    [∀ b, Forward (body' b)] [h : ∀ a, Sides w (body a) (body' a)] (a : α) :
    Ends w stops (repeating body a) (repeating body' a) :=
  repeating_meet (fun a _ hab => hab.eq ▸ h a) ⟨Steers.Exact.refl a⟩

instance [Steers α] {item item' : Parse (Option α)} [Forward item] [Forward item'] [Sides w item item'] :
    Ends w stops (many item) (many item') := by
  have turn (as bs : List α) (has : Alike as bs) : Sides w (manyTurn item as) (manyTurn item' bs) := by
    have := Has.afterItem @Forward as
    have := Has.afterItem @Forward bs
    refine Sides.bind fun a b hab => ?_
    obtain ⟨hab⟩ := hab
    cases hab with
    | none => infer_instance
    | some hab =>
      have := Alike.mk hab
      infer_instance
  have : Sides w (repeating (manyTurn item) []) (repeating (manyTurn item') []) :=
    repeating_meet turn ⟨.nil⟩
  exact Sides.bind fun as bs _ => inferInstance

/-! ## Paths -/

/-- The points that touch their neighbours are the same before the index. -/
theorem Paired.isTightDot_eq (h : w.Paired s t) (hlt : s.cursor.position < w.index) :
    isTightDot t.cursor = isTightDot s.cursor := by
  have hspan {i : Nat} (hi : i ≤ w.index) : (w.right.get? i).map Token.span = (w.left.get? i).map Token.span := by
    rcases Nat.lt_or_eq_of_le hi with hi | rfl
    · rw [w.same i hi]
    · exact w.spans
  have hprevious : t.cursor.previousSpan = s.cursor.previousSpan := by
    rw [Cursor.previousSpan, Cursor.previousSpan, h.position, h.left, h.right,
      hspan (i := s.cursor.position - 1) (by omega)]
  have hnext : t.cursor.nextSpan = s.cursor.nextSpan := by
    rw [Cursor.nextSpan, Cursor.nextSpan, h.position, h.left, h.right, h.current hlt, hspan hlt]
  rw [isTightDot, isTightDot, hprevious, hnext, h.current hlt]

theorem isPathDot_eq (c : Cursor) :
    isPathDot c = (c.isAt .dot && TagSet.identStart.contains (c.peekTag 1) && isTightDot c) := by
  rw [isPathDot, isTightDot, Bool.and_assoc]

/-- A point in a path is taken, and the name behind it. -/
theorem segment_entered (h : isPathDot s.cursor = true) :
    Entered (s.moved (s.cursor.position + 1)) (Grammar.segment s) := by
  rw [isPathDot, Bool.and_assoc, Bool.and_assoc, Bool.and_eq_true, Bool.and_eq_true] at h
  have hend : s.cursor.isAtEnd = false := by
    rw [Cursor.isAtEnd, Cursor.isAt, show s.cursor.currentTag = .dot from eq_of_beq h.1]
    rfl
  rw [Grammar.segment, bind_of_ok (advance_of_not_isAtEnd hend)]
  exact (inferInstance : Enters .identStart expectIdent).enters _ h.2.1

instance : Ends w stops Grammar.segment Grammar.segment := by unfold Grammar.segment; infer_instance

instance : Ends w stops (optionally (look isPathDot) Grammar.segment)
    (optionally (look isPathDot) Grammar.segment) := by
  refine ⟨fun s t paired => ?_⟩
  have run (s : State) : optionally (look isPathDot) Grammar.segment s =
      if isPathDot s.cursor = true then (Grammar.segment >>= fun a => pure (some a)) s else .ok none s := by
    show (if _ = true then _ else _ : Parse (Option Ident)) s = _
    split <;> rfl
  by_cases hsame : isPathDot t.cursor = isPathDot s.cursor
  · rw [run, run, hsame]
    split
    · exact Ends.meets s t paired
    · exact .both rfl rfl paired ⟨.none⟩
  · -- only the name behind the point can be at the index
    have hle : w.index ≤ s.cursor.position + 1 := by
      refine Nat.le_of_not_lt fun hlt => hsame ?_
      have hlt' : s.cursor.position < w.index := Nat.lt_of_succ_lt hlt
      rw [isPathDot_eq, isPathDot_eq, paired.isTightDot_eq hlt', Cursor.isAt, Cursor.isAt, paired.currentTag hlt',
        Cursor.peekTag, Cursor.peekTag, Cursor.tagAt, Cursor.tagAt, paired.left, paired.right, paired.position,
        w.tagAt_eq hlt]
    cases hs : isPathDot s.cursor with
    | true =>
      rw [run s, if_pos hs]
      exact .quits (Quits.of_entered (segment_entered hs) hle).bind
    | false =>
      have ht : isPathDot t.cursor = true := by rwa [hs, Bool.not_eq_false] at hsame
      rw [run t, if_pos ht]
      exact .gone (Gone.of_entered (segment_entered ht) (paired.position.symm ▸ hle)).bind

instance : Ends w stops path path := by unfold path; infer_instance

/-! ## Rows up to a stop -/

section Stops

variable {close : Tag} {Y : α → β → State → State → Prop}

/-- A turn ends before a stop, -/
theorem turn_of_mem {a : γ} {rest : Parse (ForInStep γ)}
    (h : (TagSet.single close).contains s.cursor.currentTag = true) :
    (check close >>= fun c => if c = true then pure (.done a) else rest) s = .ok (.done a) s := by
  rw [check_eq_checkSet, bind_of_ok (checkSet_of_mem h)]
  rfl

/-- and goes on otherwise. -/
theorem turn_of_not_mem {a : γ} {rest : Parse (ForInStep γ)}
    (h : (TagSet.single close).contains s.cursor.currentTag = false) :
    (check close >>= fun c => if c = true then pure (.done a) else rest) s = rest (s.noted (.single close)) := by
  rw [check_eq_checkSet, bind_of_ok (checkSet_of_not_mem h)]
  rfl

/-- A turn of two loops that asks for a stop first. -/
theorem turn_meets {A : State → Prop} {a : α} {b : β} {rest : Parse (ForInStep α)} {rest' : Parse (ForInStep β)}
    (paired : w.Paired s t) (hY : Y a b s t)
    (hrest : ∀ s' t', w.Paired s' t' → Moved 0 s s' →
      w.Meets .none (Turn Y) (rest s') (rest' t') ∨ ∃ c u, rest s' = .ok (.done c) u ∧ A u)
    {p : Parse (ForInStep α)} {q : Parse (ForInStep β)}
    (hp : p = check close >>= fun c => if c = true then pure (.done a) else rest)
    (hq : q = check close >>= fun c => if c = true then pure (.done b) else rest') :
    w.Meets .none (Turn Y) (p s) (q t) ∨ Halts w ⟨.single close, A⟩ a b s t (p s) (q t) ∨
      ∃ c u, p s = .ok (.done c) u ∧ A u := by
  subst hp hq
  rcases Nat.lt_or_eq_of_le paired.le with hlt | heq
  · have htag := paired.currentTag hlt
    cases hs : (TagSet.single close).contains s.cursor.currentTag with
    | true => exact .inl (.both (turn_of_mem hs) (turn_of_mem (htag ▸ hs)) paired hY)
    | false =>
      rw [turn_of_not_mem hs, turn_of_not_mem (htag ▸ hs)]
      have noted : w.Paired (s.noted (.single close)) (t.noted (.single close)) :=
        paired.note fun heq => absurd heq (Nat.ne_of_lt hlt)
      exact (hrest _ _ noted ⟨rfl, rfl, rfl, rfl⟩).imp_right .inr
  · have hleft := paired.currentTag_left heq
    have hright := paired.currentTag_right heq
    cases hs : (TagSet.single close).contains w.found with
    | true => exact .inr (.inl (.left heq hs (turn_of_mem (hleft ▸ hs))))
    | false =>
      cases ht : (TagSet.single close).contains w.tag with
      | true => exact .inr (.inl (.right heq ht hs (turn_of_mem (hright ▸ ht))))
      | false =>
        rw [turn_of_not_mem (hleft ▸ hs), turn_of_not_mem (hright ▸ ht)]
        exact (hrest _ _ (paired.note fun _ => ht) ⟨rfl, rfl, rfl, rfl⟩).imp_right .inr

/-- One more item of a row, unless a stop comes next. -/
theorem manyTurn_isBefore (stop : Tag) (p : Parse α) (items : List α) :
    manyTurn (optionally (isBefore stop) p) items =
      check stop >>= fun c =>
        if c = true then pure (.done items) else p >>= fun a => pure (.yield (a :: items)) := by
  simp only [manyTurn, optionally, isBefore, bind_assoc, pure_bind]
  congr 1
  funext c
  cases c <;> simp

/-- Rows up to a stop, which take something if they are not empty. -/
theorem row_meets [Steers α] {p q : Parse α} [Forward p] [Forward q] [h : Sides w p q]
    (paired : w.Paired s t) :
    w.Meets (.before (.single close)) (fun as bs s' _ => Alike as bs ∧
      (as = [] → s'.cursor.position = s.cursor.position))
      (many (optionally (isBefore close) p) s) (many (optionally (isBefore close) q) t) := by
  have hloop : w.Meets (.before (.single close))
      (fun as bs s' _ => Alike as bs ∧ (as = [] → s'.cursor.position = s.cursor.position))
      (repeating (manyTurn (optionally (isBefore close) p)) [] s)
      (repeating (manyTurn (optionally (isBefore close) q)) [] t) := by
    refine turns_meet (fun as bs s₁ t₁ paired has => ?_) _ _ _ _ _ _ paired ⟨inferInstance, fun _ => rfl⟩
    refine (turn_meets paired has (fun s' t' paired' _ => .inl ?_) (manyTurn_isBefore _ _ _)
      (manyTurn_isBefore _ _ _)).imp_right (.imp_right wanders_of_done)
    refine (h.meets s' t' paired').bind fun a b s₂ t₂ paired₂ hab => ?_
    exact .both rfl rfl paired₂ ⟨⟨.cons hab.alike has.1.alike⟩, nofun⟩
  refine hloop.follow (fun _ _ => ⟨_, rfl⟩) fun as bs s' _ _ has =>
    ⟨_, _, rfl, rfl, ?_, fun e => has.2 (List.reverse_eq_nil_iff.1 e)⟩
  have := has.1
  infer_instance

/-- Lists up to a stop.  `L` is what is known of a last item, `M` of one that a separator comes after; where the
left run has gone astray in an item no separator is found. -/
theorem sequence_meets [Steers α] {item item' : Parse α} {separator : Parse Bool} [Forward item] [Forward item']
    [Forward separator] {L M : α → State → Prop} {A : State → Prop}
    (hitem : ∀ s t, w.Paired s t → w.Meets (.straying A) (fun a b s _ => Alike a b ∧ L a s) (item s) (item' t))
    (hseparator : ∀ a s t, w.Paired s t → L a s →
      w.Meets .none (fun c c' s _ => c = c' ∧ M a s) (separator s) (separator t))
    (hastray : ∀ s, A s → w.Quits (separator s) ∨ ∃ s', separator s = .ok false s' ∧ A s')
    (paired : w.Paired s t) :
    w.Meets ⟨.single close, A⟩ (fun x y s _ => Alike x y ∧ ∀ a, x.1.getLast? = some a → M a s)
      (sequence close item separator s) (sequence close item' separator t) := by
  have hloop : w.Meets ⟨.single close, A⟩ (fun x y s _ => Alike x y ∧ ∀ a, x.1.head? = some a → M a s)
      (repeating (sequenceTurn close item separator) ([], false) s)
      (repeating (sequenceTurn close item' separator) ([], false) t) := by
    refine turns_meet (fun x y s t paired hxy => ?_) _ _ _ _ _ _ paired ⟨⟨.nil, rfl⟩, nofun⟩
    refine (turn_meets paired hxy (fun s₁ t₁ paired₁ _ => ?_) rfl rfl).imp_right (.imp_right wanders_of_done)
    obtain hmeets | ⟨a, s₂, hs, hA⟩ := (hitem s₁ t₁ paired₁).cases_straying
    · refine .inl (hmeets.bind fun a b s₂ t₂ paired₂ hab => ?_)
      refine (hseparator a s₂ t₂ paired₂ hab.2).bind fun c c' s₃ t₃ paired₃ hc => ?_
      obtain ⟨rfl, hM⟩ := hc
      have hlast : ∀ a', (a :: x.1).head? = some a' → M a' s₃ := by
        rintro a' ⟨⟩
        exact hM
      cases c with
      | true => exact .both rfl rfl paired₃ ⟨⟨.cons hab.1.alike hxy.1.alike.1, rfl⟩, hlast⟩
      | false => exact .both rfl rfl paired₃ ⟨⟨.cons hab.1.alike hxy.1.alike.1, rfl⟩, hlast⟩
    · rw [bind_of_ok hs]
      obtain hquits | ⟨s₃, hs₃, hA⟩ := hastray s₂ hA
      · exact .inl (.quits hquits.bind)
      · exact .inr ⟨_, s₃, bind_of_ok hs₃, hA⟩
  exact hloop.follow (fun _ _ => ⟨_, rfl⟩) fun x y s' t' _ hxy => ⟨_, _, rfl, rfl,
    ⟨List.rel_reverse hxy.1.alike.1, hxy.1.alike.2⟩,
    fun a ha => hxy.2 a (by rwa [List.getLast?_reverse] at ha)⟩

end Stops

/-! ## Lists in brackets -/

instance : Ends w stops commaSeparator commaSeparator := by unfold commaSeparator; infer_instance
instance : Ends w stops breakSeparator breakSeparator := by unfold breakSeparator; infer_instance

section Lists

variable [Steers α] {item item' : Parse α} {separator : Parse Bool} [Forward item] [Forward item']
  [Forward separator]

variable {close : Tag} [hclose : (TagSet.single close).Inner]

/-- Items with commas between them, in brackets.  Where the left run has gone astray in an item, the bracket that
closes them is missing. -/
theorem bracketed_meets {A : State → Prop}
    (hitem : ∀ s t, w.Paired s t → w.Meets (.straying A) SameWay (item s) (item' t))
    (hastray : ∀ s, A s → w.Quits (commaSeparator s) ∨ ∃ s', commaSeparator s = .ok false s' ∧ A s')
    (hclosing : ∀ s opening, A s → w.Quits (expectClosing close opening s)) :
    Ends w stops (bracketed close item) (bracketed close item') := by
  unfold bracketed
  refine Sides.bind fun o o' _ => Sides.bind fun _ _ _ => ⟨fun s t paired => ?_⟩
  refine (sequence_meets (L := fun _ _ => True) (M := fun _ _ => True) (fun s t paired => ?_)
    (fun _ s t paired _ => ?_) hastray paired).bind_stop ?_ ?_ ?_ ?_
  · exact (hitem s t paired).imp fun _ _ _ _ hab => ⟨hab, trivial⟩
  · exact (Ends.meets s t paired).mono fun _ _ _ _ _ _ _ (hab : Alike _ _) => ⟨hab.eq, trivial⟩
  · rintro x y s' t' paired' ⟨_, -⟩
    exact Ends.meets s' t' paired'
  · exact fun _ _ s' t' paired' _ heq hstop => paired'.quits heq hstop
  · exact fun _ _ s' t' paired' _ heq hstop _ => paired'.gone heq hstop
  · exact fun _ s' hA => .inl (hclosing s' _ hA).bind

instance [h : Sides w item item'] : Ends w stops (bracketed close item) (bracketed close item') :=
  bracketed_meets (A := fun _ => False) h.meets (fun _ => False.elim) fun _ _ => False.elim

/-- Items in braces, to which there may be objections.  `L` is what is known of a last item, `M` of one that
a separator comes after. -/
theorem braced_meets {L M : α → State → Prop} {finish : List α → Parse Unit} [∀ items, Forward (finish items)]
    (hitem : ∀ s t, w.Paired s t → w.Meets .none (fun a b s _ => Alike a b ∧ L a s) (item s) (item' t))
    (hseparator : ∀ a s t, w.Paired s t → L a s →
      w.Meets .none (fun c c' s _ => c = c' ∧ M a s) (separator s) (separator t))
    (hfinish : ∀ items items' s t, w.Paired s t → Alike items items' → (∀ a, items.getLast? = some a → M a s) →
      w.Meets .none (fun _ _ _ _ => True) (finish items s) (finish items' t))
    (hleft : ∀ items s t, w.Paired s t → s.cursor.position = w.index → (∀ a, items.getLast? = some a → M a s) →
      finish items s = .ok () s ∨ w.Quits (finish items s))
    (hright : ∀ items s t, w.Paired s t → s.cursor.position = w.index → w.tag = .rbrace → w.found ≠ .rbrace →
      finish items t = .ok () t ∨ w.Gone (finish items t)) :
    Ends w stops (braced item separator finish) (braced item' separator finish) := by
  unfold braced
  refine Sides.bind fun o o' _ => Sides.bind fun _ _ _ => ⟨fun s t paired => ?_⟩
  refine (sequence_meets (A := fun _ => False) hitem hseparator (fun _ => False.elim) paired).bind_stop ?_ ?_ ?_
    fun _ _ => False.elim
  · rintro x y s' t' paired' ⟨⟨halike, -⟩, hlast⟩
    have : Alike x.1 y.1 := ⟨halike⟩
    refine (hfinish x.1 y.1 s' t' paired' this hlast).bind fun _ _ s₂ t₂ paired₂ _ => ?_
    exact Ends.meets s₂ t₂ paired₂
  · rintro x y s' t' paired' ⟨-, hlast⟩ heq hstop
    rcases hleft x.1 s' t' paired' heq hlast with hok | hquits
    · rw [bind_of_ok hok]
      exact paired'.quits heq hstop
    · exact hquits.bind
  · rintro x y s' t' paired' - heq hstop hne
    rw [TagSet.contains_single] at hne
    have htag : w.tag = .rbrace := TagSet.eq_of_contains_single hstop
    rcases hright y.1 s' t' paired' heq htag (fun e => by rw [e] at hne; cases hne) with hok | hgone
    · rw [bind_of_ok hok]
      exact paired'.gone heq hstop
    · exact hgone.bind

instance [h : Sides w item item'] [hs : Sides w separator separator] :
    Ends w stops (braced item separator noObjection) (braced item' separator noObjection) := by
  refine braced_meets (L := fun _ _ => True) (M := fun _ _ => True) (fun s t paired => ?_)
    (fun _ s t paired _ => ?_) (fun _ _ s t paired _ _ => .both rfl rfl paired trivial)
    (fun _ _ _ _ _ _ => .inl rfl) fun _ _ _ _ _ _ _ => .inl rfl
  · exact (h.meets s t paired).mono fun _ _ _ _ _ _ _ hab => ⟨hab, trivial⟩
  · exact (hs.meets s t paired).mono fun _ _ _ _ _ _ _ (hab : Alike _ _) => ⟨hab.eq, trivial⟩

end Lists

end SolSyntax.Fork
