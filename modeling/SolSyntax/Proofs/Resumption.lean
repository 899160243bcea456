import SolSyntax.Proofs.Recovery

/-!
# Where parsing resumes

A boundary is a line break outside of brackets, counted from where the declaration starts.  After an
error parsing goes on at a line break or at the end, always behind the start of the declaration, and
leaves out no boundary from the error on; it goes back before the error only if no line break comes
behind it.  All of this holds for any numbers in place of tags.

Principal results: `Resync.exists_topBreakFrom` — the scan stops at the first boundary;
`resyncPoint_boundaries`.
-/

namespace SolSyntax

namespace Resync

variable {tags : Array Nat} {errorIndex depth i j k : Nat}

/-- How many brackets are open behind a tag before which `depth` are.  The kinds of brackets are not told
apart, a closing one too many counts for nothing, and neither does what is no tag. -/
def depthBehind (depth raw : Nat) : Nat :=
  match Tag.ofIndex? raw with
  | none => depth
  | some tag => tag.depthFrom depth

/-- How many brackets are open before `j`, where `depth` are open before `i`. -/
def depthBetween (tags : Array Nat) (depth i j : Nat) : Nat :=
  ((tags.toList.drop i).take (j - i)).foldl depthBehind depth

/-- A line break outside of brackets, in a declaration that starts at `declStart`. -/
def IsBoundary (tags : Array Nat) (declStart i : Nat) : Prop :=
  isBreak tags i = true ∧ depthBetween tags 0 declStart i = 0

theorem depthBetween_self : depthBetween tags depth i i = depth := by
  rw [depthBetween, Nat.sub_self]
  rfl

theorem depthBetween_succ (hi : i < tags.size) (hij : i < j) :
    depthBetween tags depth i j = depthBetween tags (depthBehind depth tags[i]) (i + 1) j := by
  have hi' : i < tags.toList.length := by rwa [Array.length_toList]
  rw [depthBetween, List.drop_eq_getElem_cons hi', show j - i = j - (i + 1) + 1 by omega,
    List.take_succ_cons, List.foldl_cons, Array.getElem_toList]
  rfl

theorem isBreak_iff (hi : i < tags.size) :
    isBreak tags i = true ↔ Tag.ofIndex? tags[i] = some .newline := by
  rw [isBreak, Array.getElem?_eq_getElem hi, beq_iff_eq, Option.some.injEq]
  constructor
  · intro h
    rw [h, Tag.ofIndex?_index]
  · intro h
    exact (Tag.index_of_ofIndex? h).symm

/-- One step of the scan. -/
theorem topBreakFrom_step (hi : i < tags.size) : topBreakFrom tags errorIndex i depth =
    if isBreak tags i = true ∧ depth = 0 ∧ errorIndex ≤ i then some i
    else topBreakFrom tags errorIndex (i + 1) (depthBehind depth tags[i]) := by
  rw [topBreakFrom, dif_pos hi, depthBehind]
  simp only [isBreak_iff hi]
  cases htag : Tag.ofIndex? tags[i] with
  | none => simp
  | some tag =>
    simp only [Option.some.injEq, Tag.depthFrom]
    cases hopen : tag.isOpening with
    | true => rw [if_pos rfl, if_pos rfl, if_neg (by rintro ⟨rfl, -⟩; cases hopen)]
    | false =>
      cases hclose : tag.isClosing with
      | true =>
        rw [if_neg Bool.false_ne_true, if_neg Bool.false_ne_true, if_pos rfl, if_pos rfl,
          if_neg (by rintro ⟨rfl, -⟩; cases hclose)]
      | false => rfl

/-- The scan stops where no bracket is open. -/
theorem depthBetween_topBreakFrom (h : topBreakFrom tags errorIndex i depth = some j) :
    depthBetween tags depth i j = 0 := by
  induction hn : j - i generalizing i depth with
  | zero =>
    obtain rfl : j = i := by have := (topBreakFrom_spec h).1; omega
    rw [topBreakFrom_step (lt_of_isBreak (topBreakFrom_spec h).2.2)] at h
    split at h
    · rename_i hbreak
      rw [depthBetween_self, hbreak.2.1]
    · have := (topBreakFrom_spec h).1
      omega
  | succ n ih =>
    have hlt : i < tags.size := by have := lt_of_isBreak (topBreakFrom_spec h).2.2; omega
    rw [topBreakFrom_step hlt] at h
    split at h
    · cases h
      omega
    · rw [depthBetween_succ hlt (by omega)]
      exact ih h (by omega)

/-- The scan does not pass a line break, from the error on, where no bracket is open. -/
theorem exists_topBreakFrom (hi : i ≤ k) (herror : errorIndex ≤ k) (hb : isBreak tags k = true)
    (hdepth : depthBetween tags depth i k = 0) :
    ∃ j, topBreakFrom tags errorIndex i depth = some j ∧ j ≤ k := by
  induction hn : k - i generalizing i depth with
  | zero =>
    obtain rfl : k = i := by omega
    rw [depthBetween_self] at hdepth
    exact ⟨k, by rw [topBreakFrom_step (lt_of_isBreak hb), if_pos ⟨hb, hdepth, herror⟩], Nat.le_refl k⟩
  | succ n ih =>
    have hlt : i < tags.size := by have := lt_of_isBreak hb; omega
    rw [topBreakFrom_step hlt]
    split
    · exact ⟨i, rfl, hi⟩
    · rw [depthBetween_succ hlt (by omega)] at hdepth
      exact ih (by omega) hdepth (by omega)

end Resync

section Declaration

open Resync

variable {tags : Array Nat} {declStart errorIndex k : Nat}

/-- If there is a boundary from the error on, parsing goes on at the first one. -/
theorem resyncPoint_first (hle : declStart ≤ errorIndex) (hk : errorIndex ≤ k)
    (h : IsBoundary tags declStart k) : resyncPoint tags declStart errorIndex ≤ k ∧
      IsBoundary tags declStart (resyncPoint tags declStart errorIndex) := by
  obtain ⟨j, hj, hjk⟩ := exists_topBreakFrom (Nat.le_trans hle hk) hk h.1 h.2
  rw [resyncPoint, hj]
  exact ⟨hjk, (topBreakFrom_spec hj).2.2, depthBetween_topBreakFrom hj⟩

/-- Parsing goes back only to the last line break before the error, and only if none comes behind it. -/
theorem resyncPoint_lt (herror : errorIndex < tags.size)
    (h : resyncPoint tags declStart errorIndex < errorIndex) :
    (∀ k, errorIndex ≤ k → isBreak tags k = false) ∧
      isBreak tags (resyncPoint tags declStart errorIndex) = true ∧
      ∀ k, resyncPoint tags declStart errorIndex < k → k < errorIndex → isBreak tags k = false := by
  cases htop : topBreakFrom tags errorIndex declStart 0 with
  | some j =>
    rw [resyncPoint, htop] at h
    exact absurd (topBreakFrom_spec htop).2.1 (Nat.not_le.2 h)
  | none =>
    cases hnext : breakFrom tags errorIndex with
    | some j =>
      rw [resyncPoint, htop, hnext] at h
      exact absurd (breakFrom_spec hnext).1 (Nat.not_le.2 h)
    | none =>
      have hpoint : resyncPoint tags declStart errorIndex =
          (breakBefore tags declStart errorIndex).getD (tags.size - 1) := by
        rw [resyncPoint, htop, hnext, Nat.min_eq_left (Nat.le_of_lt herror)]
      cases hprev : breakBefore tags declStart errorIndex with
      | none =>
        rw [hpoint, hprev, Option.getD_none] at h
        omega
      | some j =>
        rw [hpoint, hprev, Option.getD_some]
        have hspec := breakBefore_spec hprev
        refine ⟨fun k hk => Bool.eq_false_iff.2 fun hb => ?_, hspec.2.2, fun k hjk hk =>
          Bool.eq_false_iff.2 fun hb => ?_⟩
        · obtain ⟨i, hi⟩ := exists_of_breakFrom hk hb
          rw [hnext] at hi
          cases hi
        · obtain ⟨i, hi, hki⟩ := exists_of_breakBefore (Nat.lt_trans hspec.1 hjk) hk hb
          rw [hprev] at hi
          cases hi
          omega

/-- **After an error parsing goes on behind the start of the declaration and leaves out no boundary.**  It
goes on at a line break or at the last index, at the first boundary from the error on if there is one, and
before the error only if no line break comes behind that; then at the last one before the error. -/
theorem resyncPoint_boundaries (hstart : declStart < tags.size - 1) (hle : declStart ≤ errorIndex)
    (herror : errorIndex < tags.size) (hbreak : isBreak tags declStart = false) :
    let resumed := resyncPoint tags declStart errorIndex
    (declStart < resumed ∧ resumed ≤ tags.size - 1) ∧
    (isBreak tags resumed = true ∨ resumed = tags.size - 1) ∧
    (∀ k, errorIndex ≤ k → k < resumed → ¬IsBoundary tags declStart k) ∧
    (∀ k, errorIndex ≤ k → IsBoundary tags declStart k → IsBoundary tags declStart resumed) ∧
    (resumed < errorIndex → (∀ k, errorIndex ≤ k → isBreak tags k = false) ∧
      isBreak tags resumed = true ∧ ∀ k, resumed < k → k < errorIndex → isBreak tags k = false) := by
  intro resumed
  have hwhere := resyncPoint_spec (by omega) hle hbreak
  have hinside : resumed < tags.size := by
    rcases hwhere.2 with hb | hb
    · exact lt_of_isBreak hb
    · exact Nat.lt_of_succ_le (Nat.le_of_eq hb)
  refine ⟨⟨hwhere.1, Nat.le_sub_one_of_lt hinside⟩, hwhere.2.imp_right Nat.eq_sub_of_add_eq, ?_, ?_,
    resyncPoint_lt herror⟩
  · intro k hk hlt h
    exact Nat.not_le.2 hlt (resyncPoint_first hle hk h).1
  · intro k hk h
    exact (resyncPoint_first hle hk h).2

/-- An error behind a bracket that is never closed: the line break before it is the last one, and the number
255 is no tag. -/
theorem unclosed_bracket_boundaries :
    let tags := #[Tag.ident.index, Tag.lparen.index, Tag.newline.index, 255, Tag.eof.index]
    let resumed := resyncPoint tags 0 3
    (0 < tags.size - 1 ∧ 0 ≤ 3 ∧ 3 < tags.size ∧ isBreak tags 0 = false) ∧
    (0 < resumed ∧ resumed ≤ tags.size - 1) ∧
    (isBreak tags resumed = true ∨ resumed = tags.size - 1) ∧
    (∀ k, 3 ≤ k → k < resumed → ¬IsBoundary tags 0 k) ∧
    (∀ k, 3 ≤ k → IsBoundary tags 0 k → IsBoundary tags 0 resumed) ∧
    (resumed < 3 → (∀ k, 3 ≤ k → isBreak tags k = false) ∧
      isBreak tags resumed = true ∧ ∀ k, resumed < k → k < 3 → isBreak tags k = false) := by
  intro tags resumed
  have hyp : 0 < tags.size - 1 ∧ 0 ≤ 3 ∧ 3 < tags.size ∧ isBreak tags 0 = false := by decide
  exact ⟨hyp, resyncPoint_boundaries hyp.1 hyp.2.1 hyp.2.2.1 hyp.2.2.2⟩

end Declaration

end SolSyntax
