import SolSyntax.Proofs.ForkSteps

/-!
# Where lookahead tells two token lists apart

Lookahead from before the index of a `Fork` gives different answers on the two lists only if it gets to the index
and heeds the tag there: it ends there on the right, or the group that it is about ends right before it.

Principal results: `Paired.annotated_split`, `Paired.clause_split`, `Paired.group_split`, `Paired.params_split` —
what is known if the answers differ.
-/

namespace SolSyntax

/-- The tokens from an index on, cut at another. -/
theorem TokenList.drop_eq_slice_append (ts : TokenList) {i j : Nat} (h : i ≤ j) :
    ts.toList.drop i = ts.slice i j ++ ts.toList.drop j := by
  have hcut := List.take_append_drop (j - i) (ts.toList.drop i)
  rw [List.drop_drop, Nat.add_sub_cancel' h] at hcut
  exact hcut.symm

namespace Fork

open Grammar Parse

variable {w : Fork} {s s' t : State}

/-- The tokens from a place up to the index. -/
def upTo (w : Fork) (i : Nat) : List Token := w.left.slice i w.index

theorem slice_right (w : Fork) (i : Nat) : w.right.slice i w.index = w.upTo i := by
  refine List.ext_getElem? fun n => ?_
  rw [upTo, TokenList.slice, TokenList.slice, List.getElem?_take, List.getElem?_take]
  split
  · rename_i hn
    rw [List.getElem?_drop, List.getElem?_drop]
    have hsame := w.same (i + n) (by omega)
    rwa [TokenList.get?, TokenList.get?, ← Array.getElem?_toList, ← Array.getElem?_toList] at hsame
  · rfl

theorem headTag_drop_left (w : Fork) : headTag (w.left.toList.drop w.index) = w.found := (tagAt_eq_headTag _ _).symm

theorem headTag_drop_right (w : Fork) : headTag (w.right.toList.drop w.index) = w.tag := (tagAt_eq_headTag _ _).symm

theorem exists_drop_right (w : Fork) (h : w.tag ≠ .eof) :
    ∃ o y, o.tag = w.tag ∧ w.right.toList.drop w.index = o :: y := by
  have hhead := w.headTag_drop_right
  cases hdrop : w.right.toList.drop w.index with
  | nil =>
    rw [hdrop] at hhead
    exact absurd hhead.symm h
  | cons o y => exact ⟨o, y, by rw [hdrop] at hhead; exact hhead, rfl⟩

theorem le_of_upTo_eq_nil (w : Fork) {i : Nat} (h : w.upTo i = []) : w.index ≤ i := by
  rw [upTo, TokenList.slice, List.take_eq_nil_iff, List.drop_eq_nil_iff] at h
  have hinside : w.index < w.left.toList.length := w.inside
  omega

section Paired

variable (h : w.Paired s t)
include h

theorem Paired.rest_left : s.cursor.rest = w.upTo s.cursor.position ++ w.left.toList.drop w.index := by
  rw [Cursor.rest, h.left]
  exact w.left.drop_eq_slice_append h.le

theorem Paired.rest_right : t.cursor.rest = w.upTo s.cursor.position ++ w.right.toList.drop w.index := by
  rw [Cursor.rest, h.right, h.position, ← w.slice_right]
  exact w.right.drop_eq_slice_append h.le

/-- The token at the cursor, and those up to the index. -/
theorem Paired.upTo_eq_cons (hlt : s.cursor.position < w.index) (heof : s.cursor.currentTag ≠ .eof) :
    ∃ o, o.tag = s.cursor.currentTag ∧ w.upTo s.cursor.position = o :: w.upTo (s.cursor.position + 1) := by
  rw [Cursor.currentTag, Cursor.tagAt, h.left] at *
  exact TokenList.slice_cons heof hlt

/-! ## Scans in no bracket -/

/-- A scan in no bracket that gives different answers has passed no more than it may, and the tag ends it on the
right. -/
theorem Paired.run_split {a : Scan} (ha : a ∈ Scan.all) (hzero : a.least = 0)
    (hne : a.run t.cursor.rest 0 ≠ a.run s.cursor.rest 0) :
    ∃ e, a.Leads 0 (w.upTo s.cursor.position) a e ∧
      (a.run s.cursor.rest 0 = false ∧ e = 0 ∧ a.verdict w.tag [] = some true ∨
        a.run s.cursor.rest 0 = true ∧ (e = 0 ∧ a.verdict w.tag [] = some false ∨ w.tag = .eof)) := by
  have hpos : a.least ≤ 0 := Nat.le_of_eq hzero
  rw [h.rest_left, h.rest_right] at hne
  rw [h.rest_left]
  obtain hsame | ⟨b, e, hleads, he, htells⟩ | ⟨tag, u, c, -, -, hleads⟩ :=
      w.ahead.append_cases ha (w.upTo s.cursor.position) hpos
  · exact absurd hsame hne
  · obtain rfl := hleads.eq_of_least hzero
    refine ⟨e, hleads, ?_⟩
    rw [hleads.run_eq, hleads.run_eq] at hne
    rw [hleads.run_eq]
    by_cases heof : w.tag = .eof
    · rw [run_eq_false_of_headTag w.headTag_drop_right heof he] at hne
      exact .inr ⟨by simpa using hne.symm, .inr heof⟩
    obtain ⟨rfl, hseen⟩ := htells.resolve_right heof
    obtain ⟨c, hc⟩ : ∃ c, b.verdict w.tag [] = some c := by
      rw [Scan.tells_of_least hzero] at hseen
      cases hv : b.verdict w.tag [] with
      | some c => exact ⟨c, rfl⟩
      | none => exact absurd (hseen.symm.trans (Scan.verdict_eq_none_iff.1 hv)) nofun
    obtain ⟨o, y, ho, hdrop⟩ := w.exists_drop_right heof
    rw [hdrop, Scan.run_of_verdict hzero (ho ▸ hc)] at hne
    cases c with
    | true => exact .inl ⟨by simpa using hne.symm, hzero, hc⟩
    | false => exact .inr ⟨by simpa using hne.symm, .inl ⟨hzero, hc⟩⟩
  · have hleast := hleads.least_eq
    rw [hzero] at hleast
    cases hleast

theorem Paired.annotated_split (hne : isAnnotated t.cursor ≠ isAnnotated s.cursor) :
    ∃ e, Scan.Leads .annotated 0 (w.upTo s.cursor.position) .annotated e ∧
      (isAnnotated s.cursor = false ∧ e = 0 ∧ w.tag = .colon ∨
        isAnnotated s.cursor = true ∧
          (e = 0 ∧ w.tag ∈ [Tag.comma, .rparen, .rbracket, .rbrace] ∨ w.tag = .eof)) := by
  rw [Cursor.isAnnotated_eq, Cursor.isAnnotated_eq] at *
  obtain ⟨e, hleads, hsplit⟩ := h.run_split (a := .annotated) (by simp [Scan.all]) rfl hne
  refine ⟨e, hleads, hsplit.imp ?_ ?_⟩
  · rintro ⟨hfalse, he, hv⟩
    refine ⟨hfalse, he, ?_⟩
    revert hv
    cases w.tag <;> simp [Scan.verdict, Tag.isClosing]
  · rintro ⟨htrue, h⟩
    refine ⟨htrue, h.imp_left (And.imp_right fun hv => ?_)⟩
    revert hv
    cases w.tag <;> simp [Scan.verdict, Tag.isClosing]

theorem Paired.clause_split (hne : isClauseLine t.cursor ≠ isClauseLine s.cursor) :
    ∃ e, Scan.Leads .clause 0 (w.upTo s.cursor.position) .clause e ∧
      (isClauseLine s.cursor = false ∧ e = 0 ∧ w.tag = .eq ∨
        isClauseLine s.cursor = true ∧
          (e = 0 ∧ w.tag ∈ [Tag.newline, .lbrace, .rparen, .rbracket, .rbrace] ∨ w.tag = .eof)) := by
  rw [isClauseLine, isClauseLine, Cursor.lineHas_eq, Cursor.lineHas_eq] at *
  obtain ⟨e, hleads, hsplit⟩ := h.run_split (a := .clause) (by simp [Scan.all]) rfl hne
  refine ⟨e, hleads, hsplit.imp ?_ ?_⟩
  · rintro ⟨hfalse, he, hv⟩
    refine ⟨hfalse, he, ?_⟩
    revert hv
    cases w.tag <;> simp [Scan.verdict, Tag.isClosing]
  · rintro ⟨htrue, h⟩
    refine ⟨htrue, h.imp_left (And.imp_right fun hv => ?_)⟩
    revert hv
    cases w.tag <;> simp [Scan.verdict, Tag.isClosing]

end Paired

/-! ## Scans of groups -/

/-- The group that begins at a place ends right before the index. -/
def EndsGroup (w : Fork) (i : Nat) : Prop := Ended (w.upTo (i + 1))

/-- The group that begins at a place does not end before the index. -/
def HoldsIndex (w : Fork) (i : Nat) : Prop := Unclosed (w.upTo (i + 1))

section Groups

variable (h : w.Paired s t) (hlt : s.cursor.position < w.index)
include h hlt

theorem Paired.groupFollowedBy_eq (ho : s.cursor.currentTag.isOpening = true) (tag : Tag) :
    s.cursor.groupFollowedBy tag = closesBefore tag (w.upTo (s.cursor.position + 1) ++ w.left.toList.drop w.index) 1 ∧
    t.cursor.groupFollowedBy tag =
      closesBefore tag (w.upTo (s.cursor.position + 1) ++ w.right.toList.drop w.index) 1 := by
  obtain ⟨o, hmem, hcons⟩ := h.upTo_eq_cons hlt (Tag.ne_eof_of_isOpening ho)
  rw [← hmem] at ho
  rw [Cursor.groupFollowedBy_eq, Cursor.groupFollowedBy_eq, h.rest_left, h.rest_right, hcons, List.cons_append,
    List.cons_append, groupThen_of_isOpening ho, groupThen_of_isOpening ho]
  exact ⟨rfl, rfl⟩

theorem Paired.group_split (ho : s.cursor.currentTag.isOpening = true) {tag : Tag} (htag : tag ∈ followers)
    (hne : t.cursor.groupFollowedBy tag ≠ s.cursor.groupFollowedBy tag) :
    w.EndsGroup s.cursor.position ∨
      s.cursor.groupFollowedBy tag = true ∧ w.tag = .eof ∧ w.HoldsIndex s.cursor.position := by
  obtain ⟨hleft, hright⟩ := h.groupFollowedBy_eq hlt ho tag
  rw [hleft, hright] at hne
  rw [hleft]
  refine (w.ahead.closesBefore_ne w.headTag_drop_right htag hne).imp_right fun ⟨heof, hunclosed, hfalse⟩ =>
    ⟨?_, heof, hunclosed⟩
  rw [hfalse] at hne
  simpa using Ne.symm hne

theorem Paired.params_split (ho : s.cursor.currentTag = .lparen)
    (hne : isParamList t.cursor ≠ isParamList s.cursor) :
    w.EndsGroup s.cursor.position ∨
      isParamList s.cursor = true ∧ (w.tag = .eof ∧ w.HoldsIndex s.cursor.position ∨
        s.cursor.position + 1 = w.index ∧ w.found = .quote ∨
        w.tag.isClosing = true ∧ LateParams w.left w.index s.cursor.position) ∨
      isParamList s.cursor = false ∧ Closes 0 (w.upTo (s.cursor.position + 1)) ∧ (w.tag = .quote ∨ w.tag = .colon) := by
  obtain ⟨o, hmem, hcons⟩ := h.upTo_eq_cons hlt (by rw [ho]; decide)
  have hopens : o.tag.isOpening = true := by rw [hmem, ho]; rfl
  have hleft : isParamList s.cursor = opensParams (w.upTo (s.cursor.position + 1) ++ w.left.toList.drop w.index) := by
    rw [Cursor.isParamList_eq, h.rest_left, hcons, List.cons_append, holdsParams_of_isOpening hopens]
  have hright : isParamList t.cursor = opensParams (w.upTo (s.cursor.position + 1) ++ w.right.toList.drop w.index) := by
    rw [Cursor.isParamList_eq, h.rest_right, hcons, List.cons_append, holdsParams_of_isOpening hopens]
  rw [hleft, hright] at hne
  obtain hended | ⟨htrue, hsplit⟩ | hfalse := w.ahead.opensParams_ne w.headTag_drop_right hne
  · exact .inl hended
  · rw [hleft]
    refine .inr (.inl ⟨htrue, ?_⟩)
    obtain ⟨heof, hunclosed⟩ | ⟨hnil, hquote⟩ | ⟨hclosing, hcloses, hcolon, hfirst⟩ := hsplit
    · exact .inl ⟨heof, hunclosed⟩
    · exact .inr (.inl ⟨Nat.le_antisymm hlt (w.le_of_upTo_eq_nil hnil), w.headTag_drop_left.symm.trans hquote⟩)
    · by_cases hquote : w.left.tagAt (s.cursor.position + 1) = .quote
      · -- a quote that comes first stands at the index
        rw [tagAt_eq_headTag, w.left.drop_eq_slice_append hlt] at hquote
        by_cases hnil : w.upTo (s.cursor.position + 1) = []
        · have heq := Nat.le_antisymm hlt (w.le_of_upTo_eq_nil hnil)
          rw [show w.left.slice (s.cursor.position + 1) w.index = [] from hnil, List.nil_append] at hquote
          exact .inr (.inl ⟨heq, w.headTag_drop_left.symm.trans hquote⟩)
        · exact absurd ((headTag_append hnil).symm.trans hquote) (hfirst hnil)
      · refine .inr (.inr ⟨hclosing, ?_, hlt, hcloses, ?_, hquote, hcolon⟩)
        · rw [← ho, Cursor.currentTag, Cursor.tagAt, h.left]
        · rw [← h.left]
          exact (Cursor.isParamList_eq s.cursor).symm.trans (hleft.trans htrue)
  · rw [hleft]
    exact .inr (.inr hfalse)

end Groups

end Fork

end SolSyntax
