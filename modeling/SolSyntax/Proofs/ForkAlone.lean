import SolSyntax.Proofs.ForkLookahead
import SolSyntax.Proofs.ForkRows

/-!
# The left run alone

Where lookahead gives different answers on the two lists of a `Fork`, the left run reads something that the right
one does not.  It comes to nothing: what it asks for at the index is known from the brackets it has opened, and the
tag on the right, which has misled the right run, is none of it.

Principal results: `typedParam_quits`, `memberParam_strays` — parameters with and without a type; `arrow_split`,
`sigma_quits` — parameters and what looks like them.
-/

-- instances are long terms, as productions have many steps
set_option synthInstance.maxSize 2000

namespace SolSyntax

open Grammar

namespace Scan.Leads

variable {a b : Scan} {u v : List Token} {t : Token} {e : Nat}

/-- What is behind properly bracketed tokens is scanned as they are. -/
theorem behind (h : Leads a a.least (u ++ v) b e) (ha : a.least = 0) (hu : Closes 0 u) : Leads a 0 v b e := by
  obtain ⟨c, k, hleads, hrest⟩ := h.append
  obtain rfl := hleads.eq_of_least ha
  obtain rfl : k = c.least := hleads.depth_eq hu (Nat.zero_add _).symm
  rwa [ha] at hrest

/-- A bracket that closes the outermost one ends every scan. -/
theorem not_isClosing (h : Leads a a.least (t :: v) b e) : t.tag.isClosing = false := by
  cases h with
  | inner _ hlt => exact absurd hlt (Nat.lt_irrefl _)
  | outer _ hs => exact @isClosing_of_verdict _ _ [] (verdict_eq_none_iff.2 hs)
  | colon hcolon => rw [hcolon]; rfl

end Scan.Leads

namespace Fork

open Parse

variable {w : Fork} {s s' t : State} {r : Rules} {l : Option Nat}

/-! ## Tokens up to the index -/

/-- The tokens up to the index, cut at a place between. -/
theorem upTo_eq_append (w : Fork) {i j : Nat} (hi : i ≤ j) (hj : j ≤ w.index) :
    w.upTo i = w.left.slice i j ++ w.upTo j := (TokenList.slice_append hi hj).symm

/-- The first of them. -/
theorem upTo_eq_cons (w : Fork) {i : Nat} (hi : i < w.index) :
    ∃ o, o.tag = w.left.tagAt i ∧ w.upTo i = o :: w.upTo (i + 1) :=
  take_drop_eq_cons hi (Nat.lt_trans hi w.inside)

/-! ## Groups -/

/-- What closes the outermost bracket. -/
theorem groupSplit_of_closes {u : List Token} {c : Token} (hu : Closes 0 u) (hc : c.tag.isClosing = true)
    (z : List Token) : groupSplit (u ++ c :: z) 1 = some (u, z) := by
  have hlast : groupSplit (c :: z) 1 = some ([], z) := by rw [groupSplit, if_pos ⟨hc, Nat.le_refl _⟩]
  rw [← Nat.zero_add 1, hu.groupSplit_eq _ Nat.one_pos, hlast]
  simp

/-- A group that ends right before the index is closed there. -/
theorem EndsGroup.closes {i : Nat} (h : w.EndsGroup i) (hi : i < w.index) (ho : (w.left.tagAt i).isOpening = true) :
    Closes 0 (w.upTo i) := by
  obtain ⟨u, c, heq, hc, hu⟩ := h
  obtain ⟨o, hmem, hcons⟩ := w.upTo_eq_cons hi
  rw [← hmem] at ho
  have hlast : Closes 1 [c] := by
    refine ⟨Tag.ne_eof_of_isClosing hc, fun _ => Nat.one_pos, ?_⟩
    rw [Tag.depthFrom_of_isClosing hc]
    rfl
  rw [hcons, heq, Closes, Tag.depthFrom_of_isOpening ho]
  refine ⟨Tag.ne_eof_of_isOpening ho, fun h => ?_, hu.append_iff.2 hlast⟩
  rw [Tag.isClosing_of_isOpening ho] at h
  cases h

theorem groupSplit_of_ended {o c : Token} {u : List Token} (ho : o.tag.isOpening = true) (hu : Closes 0 u)
    (hc : c.tag.isClosing = true) (z : List Token) : groupSplit (o :: (u ++ [c]) ++ z) 0 = some (o :: u, z) := by
  rw [List.cons_append, List.append_assoc, List.singleton_append, groupSplit, Tag.depthFrom_of_isOpening ho,
    groupSplit_of_closes hu hc]
  simp [Tag.isClosing_of_isOpening ho, Tag.ne_eof_of_isOpening ho]

/-- Some brackets are closed by tokens that leave them open. -/
theorem not_closes_succ {d : Nat} {v z : List Token} (h : Closes d (v ++ z)) : ¬Closes (d + 1) v := by
  induction v generalizing d with
  | nil => exact nofun
  | cons t v ih =>
    intro hv
    have hdepth := Tag.depthFrom_add (k := 1) h.2.1
    exact ih h.2.2 (hdepth ▸ hv.2.2)

/-- No properly bracketed tokens end in a group that ends at the index. -/
theorem EndsGroup.le_of_closes {i j : Nat} (h : w.EndsGroup i) (ho : (w.left.tagAt i).isOpening = true) (hlt : i < j)
    (hcloses : Closes 0 (w.left.slice i j)) : w.index ≤ j := by
  refine Nat.le_of_not_lt fun hj => ?_
  obtain ⟨u, c, heq, -, hu⟩ := h
  obtain ⟨o, hmem, hcons⟩ := TokenList.slice_cons (Tag.ne_eof_of_isOpening ho) hlt
  rw [hcons, Closes, Tag.depthFrom_of_isOpening (hmem ▸ ho)] at hcloses
  -- what stands before the bracket that closes the group goes on behind the tokens
  obtain ⟨z, rfl⟩ : w.left.slice (i + 1) j <+: u := by
    have hwhole : w.left.slice (i + 1) j ++ w.upTo j = u ++ [c] := heq ▸ (w.upTo_eq_append hlt (Nat.le_of_lt hj)).symm
    refine List.prefix_of_prefix_length_le (hwhole ▸ List.prefix_append _ _) (List.prefix_append u [c]) ?_
    obtain ⟨t, -, hrest⟩ := w.upTo_eq_cons hj
    have hlength := congrArg List.length hwhole
    rw [hrest, List.length_append, List.length_append, List.length_cons, List.length_singleton] at hlength
    omega
  exact not_closes_succ hu hcloses.2.2

section Groups

variable {inner : List Tag} {close : Tag} (group : PassesGroup inner close s s') (hclose : close.isClosing = true)
  (htokens : s.cursor.tokens = w.left)
include group hclose htokens

/-- A group that ends at the index does so for a run that gets no further. -/
theorem EndsGroup.position_eq (h : w.EndsGroup s.cursor.position) (hle : s'.cursor.position ≤ w.index) :
    s'.cursor.position = w.index := by
  obtain ⟨j, hlt, hstop, -⟩ := group.group
  refine Nat.le_antisymm hle (h.le_of_closes (htokens ▸ group.opens) (by omega) ?_)
  rw [← htokens]
  exact (group.passes hclose []).closes

/-- A group that does not end before the index ends behind it. -/
theorem HoldsIndex.lt (h : w.HoldsIndex s.cursor.position) : w.index < s'.cursor.position := by
  obtain ⟨a, b, e, ha, hleads⟩ := h
  refine Nat.lt_of_not_le fun hle => ?_
  obtain ⟨j, hlt, hstop, htag, hcloses, -⟩ := group.group
  rw [htokens] at hcloses
  have hj : w.left.tagAt j = close := by rw [← htag, Cursor.tagAt, htokens]
  obtain ⟨c, hc, hcons⟩ := w.upTo_eq_cons (i := j) (by omega)
  rw [w.upTo_eq_append (i := s.cursor.position + 1) (j := j) hlt (by omega), hcons] at hleads
  obtain ⟨a', k, hfirst, hrest⟩ := hleads.append
  obtain rfl : k = 1 := hfirst.depth_eq hcloses (Nat.zero_add 1).symm
  have hleast : a'.least = 1 := hfirst.least_eq.trans ha
  rw [← hleast] at hrest
  have := hrest.not_isClosing
  rw [hc, hj, hclose] at this
  cases this

end Groups

/-! ## Steps of the left run -/

theorem currentTag_of_rests (h : w.spot.Rests l s) : s.cursor.currentTag = w.left.tagAt s.cursor.position := by
  rw [Cursor.currentTag, Cursor.tagAt, h.tokens]
  rfl

section Scanned

variable {a b : Scan} {e : Nat} (ha : a.least = 0) (hleads : Scan.Leads a a.least (w.upTo s.cursor.position) b e)
include ha hleads

/-- A scan goes on behind what has been read with its brackets closed. -/
theorem leads_of_passes {avoid : List Tag} (htokens : s.cursor.tokens = w.left) (passes : Grammar.Passes avoid s s')
    (hle : s'.cursor.position ≤ w.index) : Scan.Leads a 0 (w.upTo s'.cursor.position) b e := by
  have hclosed := passes.closes
  rw [htokens] at hclosed
  rw [w.upTo_eq_append passes.position hle] at hleads
  exact hleads.behind ha hclosed

/-- It does not end before the index. -/
theorem unsettled (h : w.spot.Rests l s) (hlt : s.cursor.position < w.index) :
    s.cursor.currentTag ≠ .eof ∧ a.settles s.cursor.currentTag = false := by
  obtain ⟨o, ho, hcons⟩ := w.upTo_eq_cons hlt
  rw [hcons] at hleads
  rw [currentTag_of_rests h, ← ho]
  exact hleads.settles_eq_false ha

end Scanned

/-- A step that asks for nothing it may not ask for quits, if it gets past the index. -/
theorem quits_of_calm {avoid : List Tag} {q : Parse α} (calm : CalmFrom w.spot avoid q s) (h : w.spot.Rests l s)
    (hl : l = some 0 → w.tag ∈ avoid) (hok : ∀ a s', q s = .ok a s' → w.index < s'.cursor.position) : w.Quits (q s) :=
  .of_hushed (calm.hushed l h hl) hok

/-- Otherwise it is at the same level behind. -/
theorem cases_of_calm {avoid : List Tag} {q : Parse α} (calm : CalmFrom w.spot avoid q s) (h : w.spot.Rests l s)
    (hl : l = some 0 → w.tag ∈ avoid) :
    w.Quits (q s) ∨
      ∃ a s', q s = .ok a s' ∧ s'.cursor.position ≤ w.index ∧ w.spot.Rests l s' ∧ Grammar.Passes avoid s s' := by
  cases hq : q s with
  | error e s' =>
    refine .inl (.of_hushed ?_ nofun)
    rw [← hq]
    exact calm.hushed l h hl
  | ok a s' =>
    rcases Nat.lt_or_ge w.index s'.cursor.position with hlt | hle
    · exact .inl hlt
    · exact .inr ⟨a, s', rfl, hle, calm.rests h hl hq, calm.passes a s' hq⟩

/-- What is taken up at the index, is taken. -/
theorem quits_of_enters {set : TagSet} {q : Parse α} [hq : Enters set q]
    (hset : set.contains s.cursor.currentTag = true)
    (hle : w.index ≤ s.cursor.position) : w.Quits (q s) := .of_entered (hq.enters s hset) hle

/-- A token that is asked for is taken at the index, or is none of those of interest. -/
theorem expect_quits {tag : Tag} (h : w.spot.Rests l s) (hinner : tag ≠ .eof)
    (hbefore : s.cursor.position < w.index → s.cursor.currentTag ≠ tag)
    (hne : w.tag ≠ tag) : w.Quits (expect tag s) := by
  rw [expect_eq_check, check_eq_checkSet]
  cases hset : (TagSet.single tag).contains s.cursor.currentTag with
  | true =>
    rw [bind_of_ok (checkSet_of_mem hset)]
    have hat : s.cursor.currentTag = tag := TagSet.eq_of_contains_single hset
    refine .of_entered (Entered.advance (isAtEnd_eq_false hat hinner)) (Nat.le_of_not_lt fun hlt => hbefore hlt hat)
  | false =>
    rw [bind_of_ok (checkSet_of_not_mem hset)]
    exact (h.note fun _ => TagSet.contains_single_of_ne hne).fresh

/-- So it is with a closing bracket. -/
theorem expectClosing_quits {close : Tag} {opening : Span} (h : w.spot.Rests l s) (hinner : close ≠ .eof)
    (hbefore : s.cursor.position < w.index → s.cursor.currentTag ≠ close) (hne : w.tag ≠ close) :
    w.Quits (expectClosing close opening s) := by
  obtain ⟨htag, hok⟩ | ⟨-, e, herror, hexpected⟩ := expectClosing_cases close opening s
  · rw [hok hinner]
    exact Nat.lt_succ_of_le (Nat.le_of_not_lt fun hlt => hbefore hlt htag)
  · rw [herror]
    intro heq
    rw [hexpected]
    exact (h.note fun _ => TagSet.contains_single_of_ne hne).fresh heq

/-! ## Parameters with and without a type -/

section Params

variable [r.Forward]

/-- A pattern is read where the right list ends the parameter before its colon. -/
theorem typedParam_quits {e : Nat} (paired : w.Paired s t)
    (hleads : Scan.Leads .annotated 0 (w.upTo s.cursor.position) .annotated e)
    (htag : e = 0 ∧ w.tag ∈ [Tag.comma, .rparen, .rbracket, .rbrace] ∨ w.tag = .eof) : w.Quits (typedParam r s) := by
  obtain ⟨l, hlevel, hl⟩ : ∃ l, w.spot.Level l s.cursor.position ∧ (l = some 0 → w.tag ∈ outsidePatterns) := by
    obtain ⟨rfl, htag⟩ | heof := htag
    · refine ⟨some 0, fun _ => hleads.closes rfl (Nat.le_refl 0), fun _ => ?_⟩
      revert htag
      cases w.tag <;> decide
    · exact ⟨none, .inl heof, nofun⟩
  have hcolon : w.tag ≠ .colon := by
    obtain ⟨-, htag⟩ | heof := htag
    · rintro e
      rw [e] at htag
      exact absurd htag (by decide)
    · rw [heof]
      nofun
  have calm : CalmFrom w.spot outsidePatterns pattern s := (inferInstance : Calm w.spot outsidePatterns pattern).calm s
  unfold typedParam
  obtain hquits | ⟨id, s₁, hs, hle, rests, passes⟩ := cases_of_calm calm (paired.rests hlevel) hl
  · exact hquits.bind
  rw [bind_of_ok hs]
  refine Quits.bind (expect_quits rests (by decide) (fun hlt hat => ?_) hcolon)
  -- a colon before the index would have been seen
  have hsettles := (unsettled rfl (leads_of_passes rfl hleads paired.left passes hle) rests hlt).2
  rw [hat] at hsettles
  cases hsettles

/-- The left run reads a parameter without a type where the right list has a colon, and has not come to its end. -/
structure Stray (w : Fork) (s : State) : Prop where
  rests : w.spot.Rests (some 0) s
  le : s.cursor.position ≤ w.index
  colon : w.tag = .colon
  leads : Scan.Leads .annotated 0 (w.upTo s.cursor.position) .annotated 0

namespace Stray

variable (h : w.Stray s)
include h

/-- It asks for no colon. -/
theorem goes {q : Parse α} [hq : Calm w.spot outside q] : w.Quits (q s) ∨ ∃ a s', q s = .ok a s' ∧ w.Stray s' := by
  refine (cases_of_calm (hq.calm s) h.rests fun _ => by rw [h.colon]; decide).imp_right ?_
  rintro ⟨a, s', hs, hle, rests, passes⟩
  exact ⟨a, s', hs, rests, hle, h.colon, leads_of_passes rfl h.leads h.rests.tokens passes hle⟩

/-- Before the index nothing ends the parameter. -/
theorem settles_eq_false (hlt : s.cursor.position < w.index) : Scan.annotated.settles s.cursor.currentTag = false :=
  (unsettled rfl h.leads h.rests hlt).2

theorem separator : w.Quits (commaSeparator s) ∨ ∃ s', commaSeparator s = .ok false s' ∧ w.Stray s' := by
  unfold commaSeparator accept
  obtain hquits | ⟨_, s₁, hs₁, h₁⟩ := h.goes (q := skipNewlines)
  · exact .inl hquits.bind
  rw [bind_of_ok hs₁, check_eq_checkSet, bind_assoc]
  cases hset : (TagSet.single .comma).contains s₁.cursor.currentTag with
  | true =>
    rw [bind_of_ok (checkSet_of_mem hset), if_pos rfl]
    refine .inl (quits_of_enters hset (Nat.le_of_not_lt fun hlt => ?_))
    have hsettles := h₁.settles_eq_false hlt
    rw [TagSet.eq_of_contains_single hset] at hsettles
    cases hsettles
  | false =>
    rw [bind_of_ok (checkSet_of_not_mem hset)]
    refine .inr ⟨_, rfl, h₁.rests.note fun _ => ?_, h₁.le, h₁.colon, h₁.leads⟩
    rw [show w.spot.tag = .colon from h₁.colon]
    rfl

theorem closing {close : Tag} (hclose : close.isClosing = true) (opening : Span) :
    w.Quits (expectClosing close opening s) := by
  refine expectClosing_quits h.rests (Tag.ne_eof_of_isClosing hclose) (fun hlt hat => ?_) fun htag => ?_
  · have hsettles := h.settles_eq_false hlt
    rw [hat, Scan.settles, hclose] at hsettles
    cases hsettles
  · rw [← htag, h.colon] at hclose
    cases hclose

end Stray

/-- Whether a parameter has a type is told apart by what ends it, or a colon. -/
theorem memberParam_strays [r.Calm w.spot] {kind : ParamSetKind} (paired : w.Paired s t)
    (hne : isAnnotated t.cursor ≠ isAnnotated s.cursor) : w.Wanders w.Stray (memberParam r kind s) := by
  have hrun : memberParam r kind s = (if isAnnotated s.cursor = true then typedParam r else bareParam r kind) s := rfl
  obtain ⟨e, hleads, ⟨hfalse, rfl, hcolon⟩ | ⟨htrue, hends⟩⟩ := paired.annotated_split hne
  · rw [hrun, if_neg (by rw [hfalse]; exact Bool.false_ne_true)]
    have stray : w.Stray s :=
      ⟨paired.rests fun _ => hleads.closes rfl (Nat.le_refl 0), paired.le, hcolon, hleads⟩
    exact stray.goes
  · rw [hrun, if_pos htrue]
    exact .inl (typedParam_quits paired hleads hends)

end Params

/-! ## Groups in front of an arrow -/

/-- A group of the left run, of which the end is not before the index. -/
def Encloses (w : Fork) (i : Nat) : Prop := w.EndsGroup i ∨ w.tag = .eof ∧ w.HoldsIndex i

section Arrows

variable [r.Calm w.spot]

/-- Parameters that do not end before the index quit, or end there. -/
theorem paramSet_ends (paired : w.Paired s t) (hlt : s.cursor.position < w.index)
    (hstart : TagSet.paramListStart.contains s.cursor.currentTag = true) (h : w.Encloses s.cursor.position) :
    w.Quits (paramSet r s) ∨ ∃ params s', paramSet r s = .ok params s' ∧ s'.cursor.position = w.index ∧
      w.spot.Rests (some 0) s' ∧ ∀ tag, s.cursor.groupFollowedBy tag = true → s'.cursor.currentTag = tag := by
  have calm (avoid : List Tag) : CalmFrom w.spot avoid (paramSet r) s := CalmOn.calm s hstart
  have hgroup {params s'} (hs : paramSet r s = .ok params s') := Calm.paramSet_group (p := w.spot) hstart hs
  obtain hends | ⟨heof, hholds⟩ := h
  · have hopening : (w.left.tagAt s.cursor.position).isOpening = true := by
      rw [← paired.left]
      exact Opening.isOpening _ hstart
    refine (cases_of_calm (calm [w.tag]) (paired.rests (l := some 0) fun _ => hends.closes hlt hopening)
      fun _ => .head _).imp_right ?_
    rintro ⟨params, s', hs, hle, rests, -⟩
    obtain ⟨close, hclose, group⟩ := hgroup hs
    exact ⟨params, s', hs, hends.position_eq group hclose paired.left hle, rests, fun tag htag =>
      Calm.currentTag_of_groupFollowedBy (p := w.spot) hstart hs htag⟩
  · refine .inl (quits_of_calm (calm []) (paired.rests (l := none) (.inl heof)) nofun fun params s' hs => ?_)
    obtain ⟨close, hclose, group⟩ := hgroup hs
    exact hholds.lt group hclose paired.left

/-- Nor does what stands before an arrow that has been seen. -/
theorem paramSet_quits [r.Forward] (paired : w.Paired s t) (hlt : s.cursor.position < w.index)
    (hstart : TagSet.paramListStart.contains s.cursor.currentTag = true) (h : w.Encloses s.cursor.position) {tag : Tag}
    [(TagSet.single tag).Inner] (hseen : s.cursor.groupFollowedBy tag = true)
    {f : ParamSet → Parse α} [∀ a, Forward (f a)] :
    w.Quits ((paramSet r >>= fun params => expect tag >>= fun _ => f params) s) := by
  obtain hquits | ⟨params, s', hs, heq, -, hbehind⟩ := paramSet_ends (r := r) paired hlt hstart h
  · exact hquits.bind
  · rw [bind_of_ok hs]
    have hmem : (TagSet.single tag).contains s'.cursor.currentTag = true :=
      hbehind tag hseen ▸ TagSet.contains_single_self _
    exact Quits.bind (quits_of_enters hmem (Nat.le_of_eq heq.symm))

/-- A loop quits with its first turn. -/
theorem turns_quits {body : β → Parse (ForInStep β)} [∀ b, Forward (body b)] {b : β}
    (h : w.Quits (body b s)) (n : Nat) :
    w.Quits (turns body n b s) := by
  cases n with
  | zero => trivial
  | succ n =>
    have := Has.afterTurn fun b => (inferInstance : Has @Forward (turns body n b))
    exact h.bind

/-- A list quits with its first item. -/
theorem sequence_quits {close : Tag} {item : Parse α} {separator : Parse Bool} [Forward item] [Forward separator]
    (hclose : s.cursor.currentTag ≠ close) (h : w.Quits (item (s.noted (.single close)))) :
    w.Quits (sequence close item separator s) := by
  have hcheck : (TagSet.single close).contains s.cursor.currentTag = false := TagSet.contains_single_of_ne hclose
  have turn : w.Quits (sequenceTurn close item separator ([], false) s) := by
    unfold sequenceTurn
    rw [check_eq_checkSet, bind_of_ok (checkSet_of_not_mem hcheck)]
    exact h.bind
  unfold Grammar.sequence repeating bounded
  exact (turns_quits turn _).bind

section Lists

variable {close : Tag} {item : Parse α} [hclose : Closing close] [hitem : Calm w.spot outside item]

/-- A list quits that the index stands in, if the tag there does not stand outside of brackets in expressions. -/
theorem bracketed_quits [Forward item] (paired : w.Paired s t)
    (ho : s.cursor.currentTag.isOpening = true) (hcloses : Closes 0 (w.upTo (s.cursor.position + 1)))
    (htag : w.tag ∈ outside) : w.Quits (bracketed close item s) := by
  have hend : s.cursor.isAtEnd = false := beq_false_of_ne (Tag.ne_eof_of_isOpening ho)
  have : TagSet.Beside outside (.single close) := Closing.beside
  have calm : Calm w.spot outside (skipNewlines >>= fun _ => sequence close item commaSeparator) := inferInstance
  have rests : w.spot.Rests (some 0) (s.moved (s.cursor.position + 1)) := by
    have hprobed := paired.probed
    exact ⟨paired.left, Nat.le_succ_of_le hprobed, fun _ => hcloses, fun _ =>
      Spot.Rests.fresh_of_lt (d := (s.moved _).cursor) hprobed (Nat.lt_succ_self _) rfl w.tag⟩
  rw [bracketed_eq]
  refine Quits.bind ?_
  rw [enclosed, bind_of_ok (advance_of_not_isAtEnd hend)]
  obtain hquits | ⟨x, s₁, hs, hle, rests₁, passes⟩ := cases_of_calm (calm.calm _) rests fun _ => htag
  · exact hquits.bind
  rw [bind_of_ok hs]
  refine Quits.bind (expectClosing_quits rests₁ (Tag.ne_eof_of_isClosing hclose.isClosing)
      (fun hlt' hat => ?_) fun heq => ?_)
  · -- no bracket closes the list before the index
    have hpassed := passes.closes
    have htokens : (s.moved (s.cursor.position + 1)).cursor.tokens = w.left := paired.left
    rw [htokens] at hpassed
    have hcloses : Closes 0 (w.upTo (s.moved (s.cursor.position + 1)).cursor.position) := hcloses
    rw [w.upTo_eq_append passes.position hle] at hcloses
    have hrest : Closes 0 (w.upTo s₁.cursor.position) := (hpassed.append_iff (k := 0)).1 hcloses
    obtain ⟨c, hc, hcons⟩ := w.upTo_eq_cons hlt'
    rw [hcons] at hrest
    refine absurd (hrest.2.1 ?_) (Nat.lt_irrefl 0)
    rw [hc, ← currentTag_of_rests rests₁, hat]
    exact hclose.isClosing
  · have hclosing := hclose.isClosing
    rw [← heq] at hclosing
    revert htag hclosing
    cases w.tag <;> decide

/-- One that ends at the index quits, or holds nothing that does not stand outside of brackets in expressions. -/
theorem bracketed_ends [Calm w.spot [] item] (paired : w.Paired s t) (hlt : s.cursor.position < w.index)
    (ho : s.cursor.currentTag.isOpening = true) (hends : w.EndsGroup s.cursor.position) :
    w.Quits (bracketed close item s) ∨
      ∃ found s', bracketed close item s = .ok found s' ∧ s'.cursor.position = w.index ∧
          PassesGroup outside close s s' := by
  have : TagSet.Beside outside (.single close) := Closing.beside
  have hset : (TagSet.single s.cursor.currentTag).contains s.cursor.currentTag = true :=
    TagSet.contains_single_self _
  have : Opening (.single s.cursor.currentTag) := .single ho
  have calm : CalmFrom w.spot [w.tag] (bracketed close item) s := CalmOn.calm s hset
  have hopening : (w.left.tagAt s.cursor.position).isOpening = true := by
    rw [← paired.left]
    exact ho
  refine (cases_of_calm calm (paired.rests (l := some 0) fun _ => hends.closes hlt hopening)
    fun _ => .head _).imp_right ?_
  rintro ⟨found, s', hs, hle, -, -⟩
  have group := bracketed_group hitem ho hs
  exact ⟨found, s', hs, hends.position_eq group hclose.isClosing paired.left hle, group⟩

end Lists

/-- Expressions in square brackets, behind which only the right list has a fat arrow. -/
theorem array_quits [r.Forward] (ctx : Context) (paired : w.Paired s t) (hlt : s.cursor.position < w.index)
    (ho : s.cursor.currentTag = .lbracket) (hends : w.EndsGroup s.cursor.position) (htag : w.tag = .fatArrow)
    (hfound : w.found ≠ .fatArrow) : w.Quits (array r ctx s) := by
  unfold array
  obtain hquits | ⟨found, s', hs, heq, group⟩ : w.Quits (bracketed .rbracket (r.expr ctx.nested) s) ∨
      ∃ found s', bracketed .rbracket (r.expr ctx.nested) s = .ok found s' ∧ s'.cursor.position = w.index ∧
        PassesGroup outside .rbracket s s' := bracketed_ends paired hlt (ho ▸ rfl) hends
  · exact hquits.bind
  · obtain ⟨j, -, hj, hclose, -⟩ := group.group
    refine absurd (w.common htag j (hj.symm.trans heq) ?_) hfound
    rw [← hclose, Cursor.tagAt, paired.left]

/-- Expressions in parentheses, which the right list has parameters for. -/
theorem parenthesized_quits [r.Forward] (ctx : Context) (paired : w.Paired s t) (hlt : s.cursor.position < w.index)
    (ho : s.cursor.currentTag = .lparen) (hends : w.EndsGroup s.cursor.position)
    (hparams : isParamList t.cursor = true) :
    w.Quits (parenthesized r ctx s) := by
  unfold parenthesized
  obtain hquits | ⟨found, s', hs, heq, group⟩ : w.Quits (bracketed .rparen (r.expr ctx.nested) s) ∨
      ∃ found s', bracketed .rparen (r.expr ctx.nested) s = .ok found s' ∧ s'.cursor.position = w.index ∧
        PassesGroup outside .rparen s s' := bracketed_ends paired hlt (ho ▸ rfl) hends
  · exact hquits.bind
  exfalso
  obtain ⟨o, m, hsplit, hfree⟩ := group.groupSplit_eq rfl
  obtain ⟨u, c, hu, hc, hcloses⟩ := hends
  obtain ⟨o', ho', hcons⟩ := w.upTo_eq_cons hlt
  have hopening : o'.tag.isOpening = true := by
    rw [ho', ← paired.left]
    exact congrArg Tag.isOpening ho
  rw [paired.rest_left, hcons, hu, groupSplit_of_ended hopening hcloses hc, Option.some.injEq,
    Prod.mk.injEq, List.cons.injEq] at hsplit
  obtain ⟨⟨rfl, rfl⟩, -⟩ := hsplit
  -- what the parentheses hold is the same in both lists
  rw [Cursor.isParamList_eq, holdsParams, paired.rest_right, hcons, hu,
    groupSplit_of_ended hopening hcloses hc] at hparams
  have hquote := hfree .quote (by decide)
  simp only [List.cons_append, List.drop_succ_cons, List.drop_zero, hfree .colon (by decide), Bool.or_false,
    Bool.and_eq_true, beq_iff_eq] at hparams
  have hfirst := hparams.2
  cases u with
  | nil =>
    rw [List.nil_append, List.singleton_append, headTag_cons] at hfirst
    rw [hfirst] at hc
    cases hc
  | cons q u =>
    rw [List.cons_append, List.cons_append, headTag_cons] at hfirst
    rw [occursIn, if_pos ⟨rfl, hfirst, by rw [hfirst]; decide⟩] at hquote
    cases hquote

/-! ### Operands in front of an arrow -/

omit [r.Calm w.spot] in
theorem current_kind {k : TokenKind} {tag : Tag} (hs : s.cursor.currentTag = tag) (hk : TokenKind.ofTag? tag = some k) :
    s.cursor.current.kind = k := TokenKind.eq_of_tag ((currentTag_eq_tag _).symm.trans hs) hk

omit [r.Calm w.spot] in
theorem operand_eq_parenthesized (ctx : Context) (hs : s.cursor.currentTag = .lparen) :
    operand r ctx s = parenthesized r ctx s := by
  show operandOf r ctx s.cursor.current s = _
  rw [operandOf, current_kind hs rfl]
  rfl

omit [r.Calm w.spot] in
theorem operand_eq_array (ctx : Context) (hs : s.cursor.currentTag = .lbracket) : operand r ctx s = array r ctx s := by
  show operandOf r ctx s.cursor.current s = _
  rw [operandOf, current_kind hs rfl]
  rfl

omit [r.Calm w.spot] in
/-- No operand begins with any other token. -/
theorem operand_of_not_mem (ctx : Context) (hs : TagSet.primaryStart.contains s.cursor.currentTag = false) :
    operand r ctx s = failWanting .primaryStart .expectedExpression s := by
  show operandOf r ctx s.cursor.current s = _
  rw [currentTag_eq_tag, Token.tag] at hs
  unfold operandOf
  cases hk : s.cursor.current.kind <;> rw [hk] at hs <;> simp only [TokenKind.tag] at hs <;>
    first
    | rfl
    | exact absurd hs (by decide)

section Levels

variable [r.Forward] (ctx : Context)

omit [r.Calm w.spot] in
/-- What fails in an operand fails in all that begins with it. -/
theorem annotated_quits (h : w.Quits (operand r ctx s)) : w.Quits (Grammar.annotated r ctx s) := by
  unfold Grammar.annotated chain application
  exact h.bind.bind.bind

omit [r.Calm w.spot] [r.Forward] in
theorem sigma_of_annotated (hno : startsSigma s.cursor = false) : sigma r ctx s = Grammar.annotated r ctx s := by
  show (if startsSigma s.cursor = true then _ else _ : Parse ExprId) s = _
  rw [hno]
  rfl

omit [r.Calm w.spot] in
theorem domainArrow_quits (hno : startsSigma s.cursor = false) (h : w.Quits (operand r ctx s)) :
    w.Quits (domainArrow r ctx s) := by
  unfold domainArrow
  refine Quits.bind ?_
  rw [sigma_of_annotated ctx hno]
  exact annotated_quits ctx h

omit [r.Calm w.spot] in
/-- So it is with the right run. -/
theorem domainArrow_gone (hno : startsSigma t.cursor = false) (h : w.Gone (operand r ctx t)) :
    w.Gone (domainArrow r ctx t) := by
  unfold domainArrow
  refine Gone.bind ?_
  rw [sigma_of_annotated ctx hno]
  unfold Grammar.annotated chain application
  exact h.bind.bind.bind

end Levels

/-! ### What is taken for parameters -/

omit [r.Calm w.spot] in
/-- What stands behind a group that ends at the index. -/
theorem EndsGroup.groupFollowedBy_eq (paired : w.Paired s t) (hlt : s.cursor.position < w.index)
    (ho : s.cursor.currentTag.isOpening = true) (hends : w.EndsGroup s.cursor.position) (tag : Tag) :
    s.cursor.groupFollowedBy tag = (w.found == tag) ∧ t.cursor.groupFollowedBy tag = (w.tag == tag) := by
  obtain ⟨u, c, hu, hc, hcloses⟩ := hends
  have behind (x : List Token) : closesBefore tag (w.upTo (s.cursor.position + 1) ++ x) 1 = (headTag x == tag) := by
    rw [hu, closesBefore, List.append_assoc, List.singleton_append, groupSplit_of_closes hcloses hc, Option.any_some]
  obtain ⟨hleft, hright⟩ := paired.groupFollowedBy_eq hlt ho tag
  rw [hleft, hright, behind, behind, w.headTag_drop_left, w.headTag_drop_right]
  exact ⟨rfl, rfl⟩

/-- Whether parameters in square brackets come next is told apart by what stands behind the brackets. -/
theorem sigma_quits [r.Forward] (ctx : Context) (paired : w.Paired s t) (hlt : s.cursor.position < w.index)
    (hne : startsSigma t.cursor ≠ startsSigma s.cursor) : w.Quits (sigma r ctx s) := by
  have hrun : sigma r ctx s = (if startsSigma s.cursor = true then
      paramSet r >>= fun params => expect .fatArrow >>= fun _ => sigmaResult r ctx params
    else Grammar.annotated r ctx) s := rfl
  have hat (c : Cursor) (hc : startsSigma c = true) : c.currentTag = .lbracket ∧ c.groupFollowedBy .fatArrow = true :=
    (Bool.and_eq_true_iff.1 hc).imp_left eq_of_beq
  have htags := paired.currentTag hlt
  cases hs : startsSigma s.cursor with
  | true =>
    obtain ⟨ho, hseen⟩ := hat _ hs
    have hright : t.cursor.groupFollowedBy .fatArrow ≠ s.cursor.groupFollowedBy .fatArrow := by
      rw [hseen]
      intro h
      rw [hs, startsSigma, Cursor.isAt, htags, ho, h] at hne
      exact hne rfl
    rw [hrun, if_pos hs]
    refine paramSet_quits paired hlt (by rw [ho]; rfl) ?_ hseen
    exact (paired.group_split hlt (by rw [ho]; rfl) (by decide) hright).imp_right And.right
  | false =>
    have ht : startsSigma t.cursor = true := by rwa [hs, ne_eq, Bool.not_eq_false] at hne
    obtain ⟨ho, hseen⟩ := hat _ ht
    rw [htags] at ho
    have hleft : t.cursor.groupFollowedBy .fatArrow ≠ s.cursor.groupFollowedBy .fatArrow := by
      rw [hseen]
      intro h
      rw [startsSigma, Cursor.isAt, ho, ← h] at hs
      cases hs
    obtain hends | ⟨htrue, -⟩ := paired.group_split hlt (by rw [ho]; rfl) (by decide) hleft
    · obtain ⟨hfound, htag⟩ := hends.groupFollowedBy_eq paired hlt (by rw [ho]; rfl) .fatArrow
      rw [hseen] at hleft htag
      rw [hfound] at hleft
      rw [hrun, hs]
      refine annotated_quits ctx ?_
      rw [operand_eq_array ctx ho]
      exact array_quits ctx paired hlt ho hends (eq_of_beq htag.symm) fun e => hleft (by rw [e]; rfl)
    · rw [htrue, hseen] at hleft
      exact absurd rfl hleft

section Arrow

variable [r.Forward] (ctx : Context)

omit [r.Calm w.spot] [r.Forward] in
theorem arrow_of_params (hs : startsParamList s.cursor = true) : arrow r ctx s =
    (paramSet r >>= fun params => expect .arrow >>= fun _ => arrowResult r ctx params) s := by
  show (if startsParamList s.cursor = true then _ else _ : Parse ExprId) s = _
  rw [hs]
  rfl

omit [r.Calm w.spot] [r.Forward] in
theorem arrow_of_domain (hs : startsParamList s.cursor = false) : arrow r ctx s = domainArrow r ctx s := by
  show (if startsParamList s.cursor = true then _ else _ : Parse ExprId) s = _
  rw [hs]
  rfl

/-- Whether braces hold parameters. -/
theorem arrow_quits_brace (paired : w.Paired s t) (hlt : s.cursor.position < w.index)
    (ho : s.cursor.currentTag = .lbrace)
    (hne : t.cursor.groupFollowedBy .arrow ≠ s.cursor.groupFollowedBy .arrow) : w.Quits (arrow r ctx s) := by
  have hstarts : startsParamList s.cursor = s.cursor.groupFollowedBy .arrow := by
    rw [startsParamList, Cursor.isAt, Cursor.isAt, ho]
    exact Bool.or_false _
  have hsplit := paired.group_split hlt (by rw [ho]; rfl) (by decide) hne
  cases hs : s.cursor.groupFollowedBy .arrow with
  | true =>
    rw [arrow_of_params ctx (hstarts.trans hs)]
    exact paramSet_quits paired hlt (by rw [ho]; rfl) (hsplit.imp_right And.right) hs
  | false =>
    rw [arrow_of_domain ctx (hstarts.trans hs)]
    refine domainArrow_quits ctx (by rw [startsSigma, Cursor.isAt, ho]; rfl) ?_
    rw [operand_of_not_mem ctx (ho ▸ rfl)]
    exact fun heq => absurd heq (Nat.ne_of_lt hlt)

omit [r.Calm w.spot] [r.Forward] in
theorem paramSet_of_lparen (ho : s.cursor.currentTag = .lparen) : paramSet r s =
    (bracketed .rparen (param r .explicit) >>= fun found => pure ⟨.explicit, found.items, found.span⟩) s := by
  show paramSetOf r s.cursor.currentTag s = _
  rw [ho]
  rfl

omit [r.Calm w.spot] in
/-- A quote at the index that comes first in parentheses is taken. -/
theorem paramSet_quits_quote (htokens : s.cursor.tokens = w.left) (ho : s.cursor.currentTag = .lparen)
    (heq : s.cursor.position + 1 = w.index) (hfound : w.found = .quote) : w.Quits (paramSet r s) := by
  have hend : s.cursor.isAtEnd = false := isAtEnd_eq_false ho (by decide)
  have htag : (s.moved (s.cursor.position + 1)).cursor.currentTag = .quote := by
    rw [← hfound, found, ← heq, ← htokens]
    rfl
  have hstays : skipNewlines (s.moved (s.cursor.position + 1)) = .ok () (s.moved (s.cursor.position + 1)) := by
    show EStateM.Result.ok () (s.moved (Cursor.skipFrom _ _ _)) = _
    unfold Cursor.skipFrom
    refine congrArg (fun i => EStateM.Result.ok () (s.moved i)) (if_neg fun h => ?_)
    have hbreak : s.cursor.tokens.tagAt (s.cursor.position + 1) = .newline := eq_of_beq h.2
    exact absurd (htag.symm.trans hbreak) (by decide)
  have hparam {u : State} (hu : (TagSet.single .quote).contains u.cursor.currentTag = true) :
      param r .explicit u = forAllParam u := by
    show (check .quote >>= fun c => if c = true then forAllParam else _) u = _
    rw [check_eq_checkSet, bind_of_ok (checkSet_of_mem hu), if_pos rfl]
  have enters : Enters (.single .quote) forAllParam := by unfold forAllParam; infer_instance
  rw [paramSet_of_lparen ho]
  unfold bracketed
  refine Quits.bind ?_
  rw [bind_of_ok (advance_of_not_isAtEnd hend), bind_of_ok hstays]
  have hquote : (TagSet.single .quote).contains
      ((s.moved (s.cursor.position + 1)).noted (.single .rparen)).cursor.currentTag = true := by
    show (TagSet.single .quote).contains (s.moved (s.cursor.position + 1)).cursor.currentTag = true
    rw [htag]
    rfl
  refine Quits.bind (sequence_quits (by rw [htag]; decide) ?_)
  rw [hparam hquote]
  exact quits_of_enters hquote (Nat.le_of_eq heq.symm)

/-- The left run has parameters where the right one has an expression, as a bracket closes it there at the index. -/
structure Late (w : Fork) (s t : State) : Prop where
  closing : w.tag.isClosing = true
  late : LateParams w.left w.index s.cursor.position
  left : startsParamList s.cursor = true
  right : startsParamList t.cursor = false

/-- Whether parentheses hold parameters. -/
theorem arrow_split_paren (paired : w.Paired s t) (hlt : s.cursor.position < w.index)
    (ho : s.cursor.currentTag = .lparen) (hne : isParamList t.cursor ≠ isParamList s.cursor) :
    w.Quits (arrow r ctx s) ∨ w.Late s t := by
  have hstarts : startsParamList s.cursor = isParamList s.cursor := by
    rw [startsParamList, Cursor.isAt, Cursor.isAt, ho]
    rfl
  have hopening : s.cursor.currentTag.isOpening = true := by rw [ho]; rfl
  have hlist : TagSet.paramListStart.contains s.cursor.currentTag = true := by rw [ho]; rfl
  have hnosigma : startsSigma s.cursor = false := by rw [startsSigma, Cursor.isAt, ho]; rfl
  have hseen (hs : isParamList s.cursor = true) : s.cursor.groupFollowedBy .arrow = true := by
    rw [Cursor.isParamList_eq] at hs
    rw [Cursor.groupFollowedBy_eq]
    exact groupThen_of_holdsParams hs
  obtain hends | ⟨htrue, ⟨heof, hholds⟩ | ⟨heq, hfound⟩ | ⟨hclosing, late⟩⟩ | ⟨hfalse, hcloses, htag⟩ :=
      paired.params_split hlt ho hne
  · left
    cases hs : isParamList s.cursor with
    | true =>
      rw [arrow_of_params ctx (hstarts.trans hs)]
      exact paramSet_quits paired hlt hlist (.inl hends) (hseen hs)
    | false =>
      rw [arrow_of_domain ctx (hstarts.trans hs)]
      refine domainArrow_quits ctx hnosigma ?_
      rw [operand_eq_parenthesized ctx ho]
      exact parenthesized_quits ctx paired hlt ho hends (by rwa [hs, ne_eq, Bool.not_eq_false] at hne)
  · left
    rw [arrow_of_params ctx (hstarts.trans htrue)]
    exact paramSet_quits paired hlt hlist (.inr ⟨heof, hholds⟩) (hseen htrue)
  · left
    rw [arrow_of_params ctx (hstarts.trans htrue)]
    exact (paramSet_quits_quote paired.left ho heq hfound).bind
  · right
    refine ⟨hclosing, late, hstarts.trans htrue, ?_⟩
    rw [htrue, ne_eq, Bool.not_eq_true] at hne
    rw [startsParamList, Cursor.isAt, Cursor.isAt, paired.currentTag hlt, ho, hne]
    rfl
  · left
    rw [arrow_of_domain ctx (hstarts.trans hfalse)]
    refine domainArrow_quits ctx hnosigma ?_
    rw [operand_eq_parenthesized ctx ho]
    unfold parenthesized
    refine (bracketed_quits paired hopening hcloses ?_).bind
    revert htag
    cases w.tag <;> simp [outside]

/-- Whether an arrow has parameters before it. -/
theorem arrow_split (paired : w.Paired s t) (hlt : s.cursor.position < w.index)
    (hne : startsParamList t.cursor ≠ startsParamList s.cursor) : w.Quits (arrow r ctx s) ∨ w.Late s t := by
  have htags := paired.currentTag hlt
  rw [startsParamList, startsParamList, Cursor.isAt, Cursor.isAt, Cursor.isAt, Cursor.isAt, htags] at hne
  by_cases hbrace : s.cursor.currentTag = .lbrace
  · refine .inl (arrow_quits_brace ctx paired hlt hbrace fun h => hne ?_)
    rw [hbrace, h]
    rfl
  · by_cases hparen : s.cursor.currentTag = .lparen
    · refine arrow_split_paren ctx paired hlt hparen fun h => hne ?_
      rw [hparen, h]
      rfl
    · refine absurd ?_ hne
      rw [beq_false_of_ne hbrace, beq_false_of_ne hparen]
      rfl

end Arrow

end Arrows

end Fork

end SolSyntax
