import SolSyntax.Proofs.Lookahead

/-!
# Brackets

`Nested` tokens are properly bracketed, kind by kind; `Closes` counts brackets without telling their
kinds apart, as the scans ahead do.

Principal results: `Nested.closes` — what is properly bracketed leaves the count as it is;
`Closes.groupSplit_eq` — a search passes over what is closed;
`groupSplit_append`, `lineHasIn_append`, `annotatedIn_append` — within tokens that close all
brackets, a scan ahead does not see what comes after them; `EndBlind` — nor does it ever see a line
break before the end.
-/

namespace SolSyntax

/-- The bracket that closes an opening one. -/
def Tag.closing? : Tag → Option Tag
  | .lparen => some .rparen
  | .lbracket => some .rbracket
  | .lbrace => some .rbrace
  | _ => none

theorem Tag.isOpening_of_closing? {o c : Tag} (h : o.closing? = some c) : o.isOpening = true := by
  cases o <;> first | rfl | cases h

theorem Tag.isClosing_of_closing? {o c : Tag} (h : o.closing? = some c) : c.isClosing = true := by
  cases o <;> cases h <;> rfl

/-- A tag that is no bracket and no end. -/
def Tag.isPlain (t : Tag) : Bool := !t.isOpening && !t.isClosing && t != .eof

theorem Tag.ne_eof_of_isPlain {t : Tag} (h : t.isPlain = true) : t ≠ .eof := by
  rintro rfl
  cases h

/-- Properly bracketed tokens without an end; `oneLine` forbids line breaks outside of brackets. -/
inductive Nested : Bool → List Token → Prop
  | nil (oneLine) : Nested oneLine []
  | token {oneLine : Bool} {t u} : t.tag.isPlain → (oneLine → t.tag ≠ .newline) → Nested oneLine u →
      Nested oneLine (t :: u)
  | group {oneLine o c u v} : o.tag.closing? = some c.tag → Nested false u → Nested oneLine v →
      Nested oneLine (o :: (u ++ c :: v))

namespace Nested

variable {oneLine : Bool} {u v : List Token}

theorem append (h : Nested oneLine u) (k : Nested oneLine v) : Nested oneLine (u ++ v) := by
  induction h with
  | nil => exact k
  | token ht hn _ ih => exact .token ht hn (ih k)
  | group hp hu _ _ ih =>
    rw [List.cons_append, List.append_assoc, List.cons_append]
    exact .group hp hu (ih k)

theorem single {t : Token} (ht : t.tag.isPlain) (hn : oneLine → t.tag ≠ .newline) :
    Nested oneLine [t] := .token ht hn (.nil _)

theorem cons {t : Token} (ht : t.tag.isPlain) (h : Nested false u) : Nested false (t :: u) :=
  .token ht (fun e => by cases e) h

/-- A group on its own. -/
theorem ofGroup {o c : Token} (h : o.tag.closing? = some c.tag) (hu : Nested false u) :
    Nested oneLine (o :: (u ++ [c])) := .group h hu (.nil _)

/-- What is properly bracketed holds no end. -/
theorem ne_eof (h : Nested oneLine u) : ∀ t ∈ u, t.tag ≠ .eof := by
  induction h with
  | nil => exact fun _ ht => by cases ht
  | token ht _ _ ih =>
    intro t hmem
    rcases List.mem_cons.1 hmem with rfl | hmem
    · exact Tag.ne_eof_of_isPlain ht
    · exact ih t hmem
  | @group _ o c u w hp _ _ ih₁ ih₂ =>
    intro t hmem
    simp only [List.mem_cons, List.mem_append] at hmem
    rcases hmem with rfl | hmem | rfl | hmem
    · exact Tag.ne_eof_of_isOpening (Tag.isOpening_of_closing? hp)
    · exact ih₁ t hmem
    · exact Tag.ne_eof_of_isClosing (Tag.isClosing_of_closing? hp)
    · exact ih₂ t hmem

end Nested

/-- The tokens close the `d` brackets that are open before them and all that they open, and hold no
end.  The kinds of brackets are not told apart. -/
def Closes : Nat → List Token → Prop
  | d, [] => d = 0
  | d, t :: ts => t.tag ≠ .eof ∧ (t.tag.isClosing → 0 < d) ∧ Closes (t.tag.depthFrom d) ts

theorem Tag.depthFrom_of_isPlain {t : Tag} (h : t.isPlain) (d : Nat) : t.depthFrom d = d := by
  simp only [isPlain, Bool.and_eq_true, Bool.not_eq_true'] at h
  simp [depthFrom, h.1.1, h.1.2]

theorem Tag.depthFrom_of_isOpening {t : Tag} (h : t.isOpening) (d : Nat) : t.depthFrom d = d + 1 := by
  simp [depthFrom, h]

theorem Tag.depthFrom_of_isClosing {t : Tag} (h : t.isClosing) (d : Nat) : t.depthFrom d = d - 1 := by
  have : t.isOpening = false := by
    cases ho : t.isOpening with
    | false => rfl
    | true => rw [Tag.isClosing_of_isOpening ho] at h; cases h
  simp [depthFrom, h, this]

/-- Brackets that are open further out do not matter. -/
theorem Tag.depthFrom_add {t : Tag} {d : Nat} (h : t.isClosing → 0 < d) (k : Nat) :
    t.depthFrom (d + k) = t.depthFrom d + k := by
  unfold depthFrom
  split
  · omega
  · split
    · rename_i hc
      have := h hc
      omega
    · rfl

/-- A bracket that is open stays so, unless it is the only one and is closed. -/
theorem Tag.depthFrom_pos {t : Tag} {d : Nat} (hd : 0 < d) (h : ¬(t.isClosing ∧ d ≤ 1)) : 0 < t.depthFrom d := by
  unfold depthFrom
  split
  · omega
  · split
    · rename_i hc
      have : ¬d ≤ 1 := fun hd => h ⟨hc, hd⟩
      omega
    · exact hd

/-- What is properly bracketed leaves the count as it is. -/
theorem Nested.closes {oneLine : Bool} {u v : List Token} (h : Nested oneLine u) {d : Nat} :
    Closes d (u ++ v) ↔ Closes d v := by
  induction h generalizing d v with
  | nil => rfl
  | token ht _ _ ih =>
    rw [List.cons_append, Closes, Tag.depthFrom_of_isPlain ht, ih]
    simp only [Tag.isPlain, Bool.and_eq_true, Bool.not_eq_true', bne_iff_ne, ne_eq] at ht
    simp [ht]
  | @group _ o c u w hp _ _ ih₁ ih₂ =>
    have ho := Tag.isOpening_of_closing? hp
    have hc := Tag.isClosing_of_closing? hp
    rw [List.cons_append, List.append_assoc, List.cons_append, Closes,
      Tag.depthFrom_of_isOpening ho, ih₁, Closes, Tag.depthFrom_of_isClosing hc, Nat.add_sub_cancel, ih₂]
    have h₁ := Tag.ne_eof_of_isOpening ho
    have h₂ := Tag.ne_eof_of_isClosing hc
    have h₃ := Tag.isClosing_of_isOpening ho
    simp [h₁, h₂, h₃]

theorem Nested.closes_zero {oneLine : Bool} {u : List Token} (h : Nested oneLine u) : Closes 0 u := by
  have : Closes 0 (u ++ []) := h.closes.2 rfl
  rwa [List.append_nil] at this

/-! ## Brackets that are closed -/

section Closes

variable {u : List Token} {d k : Nat} (h : Closes d u)
include h

/-- Brackets that were opened before those are left to be closed later. -/
theorem Closes.append_iff {v : List Token} : Closes (d + k) (u ++ v) ↔ Closes k v := by
  induction u generalizing d with
  | nil =>
    obtain rfl : d = 0 := h
    rw [List.nil_append, Nat.zero_add]
  | cons t u ih =>
    rw [List.cons_append, Closes, Tag.depthFrom_add h.2.1, ih h.2.2]
    exact ⟨fun hv => hv.2.2, fun hv => ⟨h.1, fun hc => Nat.add_pos_left (h.2.1 hc) k, hv⟩⟩

/-- A search for the bracket that closes what is open passes over what is closed. -/
theorem Closes.groupSplit_eq (r : List Token) (hk : 0 < k) :
    groupSplit (u ++ r) (d + k) = (groupSplit r k).map fun s => (u ++ s.1, s.2) := by
  induction u generalizing d with
  | nil =>
    obtain rfl : d = 0 := h
    simp
  | cons t u ih =>
    have hstays : ¬(t.tag.isClosing = true ∧ d + k ≤ 1) := fun hc => by
      have := h.2.1 hc.1
      omega
    rw [List.cons_append, groupSplit, if_neg hstays, if_neg h.1, Tag.depthFrom_add h.2.1, ih h.2.2]
    simp [Function.comp_def]

/-- Brackets that are closed hide what is in them. -/
theorem Closes.occursIn_eq (tag : Tag) (v : List Token) (hk : 0 < k) :
    occursIn tag (u ++ v) (d + k) = occursIn tag v k := by
  induction u generalizing d with
  | nil =>
    obtain rfl : d = 0 := h
    rw [List.nil_append, Nat.zero_add]
  | cons t u ih =>
    rw [List.cons_append, occursIn, if_neg (by omega), Tag.depthFrom_add h.2.1, ih h.2.2]

theorem occursIn_append {tag : Tag} {v : List Token} :
    occursIn tag (u ++ v) d = (occursIn tag u d || occursIn tag v 0) := by
  induction u generalizing d with
  | nil =>
    obtain rfl : d = 0 := h
    rfl
  | cons t u ih =>
    rw [List.cons_append, occursIn, occursIn, ih h.2.2]
    split <;> rfl

end Closes

/-! ## Scans that stay inside -/

/-- A bracket that is open is closed before the tokens end. -/
theorem groupSplit_append {v : List Token} {d k : Nat} (h : Closes (d + k) v) (hd : 0 < d) :
    ∃ u w, ∀ r, groupSplit (v ++ r) d = some (u, w ++ r) ∧ Closes k w := by
  induction v generalizing d with
  | nil =>
    have : d + k = 0 := h
    omega
  | cons t v ih =>
    obtain ⟨he, hc, h⟩ := h
    by_cases hlast : t.tag.isClosing ∧ d ≤ 1
    · refine ⟨[], v, fun r => ⟨by simp [groupSplit, hlast], ?_⟩⟩
      rw [Tag.depthFrom_of_isClosing hlast.1] at h
      rwa [show d + k - 1 = k by omega] at h
    · have hd' : 0 < t.tag.depthFrom d := Tag.depthFrom_pos hd hlast
      rw [Tag.depthFrom_add fun _ => hd] at h
      obtain ⟨u, w, huw⟩ := ih h hd'
      refine ⟨t :: u, w, fun r => ⟨?_, (huw r).2⟩⟩
      rw [List.cons_append, groupSplit, if_neg hlast, if_neg he, (huw r).1]
      rfl

/-- The group that an opening bracket starts. -/
theorem groupSplit_of_isOpening {o : Token} {v : List Token} {d : Nat} (h : Closes d (o :: v))
    (ho : o.tag.isOpening = true) :
    ∃ u w, ∀ r, groupSplit (o :: v ++ r) 0 = some (o :: u, w ++ r) := by
  obtain ⟨-, -, h⟩ := h
  rw [Tag.depthFrom_of_isOpening ho, Nat.add_comm] at h
  obtain ⟨u, w, hsplit⟩ := groupSplit_append h Nat.one_pos
  refine ⟨u, w, fun r => ?_⟩
  rw [List.cons_append, groupSplit, Tag.depthFrom_of_isOpening ho, (hsplit r).1]
  simp [Tag.isClosing_of_isOpening ho, Tag.ne_eof_of_isOpening ho]

/-- Whether a parameter has a type is settled before the list closes. -/
theorem annotatedIn_append {v : List Token} {d k : Nat} (h : Closes (d + k) v) (hk : 0 < k)
    (r : List Token) : annotatedIn (v ++ r) d = annotatedIn v d := by
  induction v generalizing d with
  | nil =>
    have : d + k = 0 := h
    omega
  | cons t v ih =>
    obtain ⟨he, hc, h⟩ := h
    rw [List.cons_append, annotatedIn, annotatedIn, if_neg he]
    split
    · rfl
    · rename_i hstop
      split
      · rfl
      · rw [ih]
        rwa [Tag.depthFrom_add fun hc => Nat.pos_of_ne_zero fun h => hstop ⟨h, .inl hc⟩] at h

/-- Whether a tag comes later on the line is settled before the line ends. -/
theorem lineHasIn_append {v r : List Token} {d k : Nat} {tag : Tag} {stops : TagSet}
    (h : Closes (d + k) v) (hr : headTag r = .newline ∨ headTag r = .eof) (ht : tag ≠ .newline) :
    lineHasIn tag stops (v ++ r) d = lineHasIn tag stops v d := by
  induction v generalizing d with
  | nil =>
    have hd : d = 0 := by have : d + k = 0 := h; omega
    cases r with
    | nil => rfl
    | cons t r =>
      rw [headTag_cons] at hr
      rcases hr with hr | hr
      · simp [lineHasIn, hr, hd, ht.symm]
      · simp [lineHasIn, hr]
  | cons t v ih =>
    obtain ⟨he, hc, h⟩ := h
    rw [List.cons_append, lineHasIn, lineHasIn, if_neg he]
    split
    · rfl
    · split
      · rfl
      · rename_i hstop
        rw [ih]
        rwa [Tag.depthFrom_add fun hc => Nat.pos_of_ne_zero fun h => hstop ⟨h, .inr (.inr hc)⟩] at h

/-! ## One more line break at the end -/

/-- A scan does not see whether there is a line break before the end of the tokens. -/
def EndBlind {α : Type} (f : List Token → α) : Prop :=
  ∀ (v : List Token) (e n e' : Token), e.tag = .eof → n.tag = .newline → e'.tag = .eof →
    f (v ++ [e]) = f (v ++ [n, e'])

/-- What a group holds and what follows it, if the tokens close it before they end. -/
theorem groupSplit_ends {e n e' : Token} (he : e.tag = .eof) (hn : n.tag = .newline)
    (he' : e'.tag = .eof) (v : List Token) (d : Nat) :
    ∃ o : Option (List Token × List Token),
      groupSplit (v ++ [e]) d = o.map (fun s => (s.1, s.2 ++ [e])) ∧
        groupSplit (v ++ [n, e']) d = o.map (fun s => (s.1, s.2 ++ [n, e'])) := by
  induction v generalizing d with
  | nil =>
    refine ⟨none, ?_, ?_⟩
    · simp [groupSplit, he, Tag.isClosing]
    · simp [groupSplit, hn, he', Tag.isClosing]
  | cons t v ih =>
    by_cases hlast : t.tag.isClosing ∧ d ≤ 1
    · exact ⟨some ([], v), by simp [groupSplit, hlast], by simp [groupSplit, hlast]⟩
    · by_cases ht : t.tag = .eof
      · refine ⟨none, ?_, ?_⟩
        · rw [List.cons_append, groupSplit, if_neg hlast, if_pos ht, Option.map_none]
        · rw [List.cons_append, groupSplit, if_neg hlast, if_pos ht, Option.map_none]
      · obtain ⟨o, h₁, h₂⟩ := ih (t.tag.depthFrom d)
        refine ⟨o.map fun s => (t :: s.1, s.2), ?_, ?_⟩
        · rw [List.cons_append, groupSplit, if_neg hlast, if_neg ht, h₁, Option.map_map,
            Option.map_map]
          rfl
        · rw [List.cons_append, groupSplit, if_neg hlast, if_neg ht, h₂, Option.map_map,
            Option.map_map]
          rfl

theorem headTag_ends {tag : Tag} (ht : tag ≠ .newline) (ht' : tag ≠ .eof) {e n e' : Token}
    (he : e.tag = .eof) (hn : n.tag = .newline) (v : List Token) :
    (headTag (v ++ [e]) == tag) = (headTag (v ++ [n, e']) == tag) := by
  cases v with
  | nil =>
    show (e.tag == tag) = (n.tag == tag)
    rw [he, hn, beq_false_of_ne ht.symm, beq_false_of_ne ht'.symm]
  | cons t v => rfl

theorem groupThen_endBlind {tag : Tag} (ht : tag ≠ .newline) (ht' : tag ≠ .eof) :
    EndBlind (groupThen tag) := by
  intro v e n e' he hn he'
  obtain ⟨o, h₁, h₂⟩ := groupSplit_ends he hn he' v 0
  rw [groupThen, groupThen, h₁, h₂]
  cases o with
  | none => rfl
  | some s => exact headTag_ends ht ht' he hn s.2

theorem holdsParams_endBlind : EndBlind holdsParams := by
  intro v e n e' he hn he'
  obtain ⟨o, h₁, h₂⟩ := groupSplit_ends he hn he' v 0
  rw [holdsParams, holdsParams, h₁, h₂]
  cases o with
  | none => rfl
  | some s =>
    have harrow : (headTag (s.2 ++ [e]) == Tag.arrow) = (headTag (s.2 ++ [n, e']) == Tag.arrow) :=
      headTag_ends (by decide) (by decide) he hn s.2
    have hquote : (headTag ((v ++ [e]).drop 1) == .quote) = (headTag ((v ++ [n, e']).drop 1) == .quote) := by
      cases v with
      | nil =>
        show (Tag.eof == Tag.quote) = (e'.tag == Tag.quote)
        rw [he']
      | cons t v => exact headTag_ends (by decide) (by decide) he hn v
    simp only [Option.map_some, harrow, hquote]

theorem annotatedIn_endBlind (d : Nat) : EndBlind fun ts => annotatedIn ts d := by
  intro v e n e' he hn he'
  induction v generalizing d with
  | nil => simp [annotatedIn, he, hn, he', Tag.isClosing]
  | cons t v ih => simp only [List.cons_append, annotatedIn, ih]

theorem lineHasIn_endBlind {tag : Tag} (ht : tag ≠ .newline) (stops : TagSet) (d : Nat) :
    EndBlind fun ts => lineHasIn tag stops ts d := by
  intro v e n e' he hn he'
  induction v generalizing d with
  | nil => simp [lineHasIn, he, hn, he', ht.symm]
  | cons t v ih => simp only [List.cons_append, lineHasIn, ih]

end SolSyntax
