import Mathlib.Data.List.Basic
import SolSyntax.Proofs.Brackets
import SolSyntax.Proofs.Recovery

/-!
# Scans ahead

Lookahead from before an index scans the tokens from there on, with some brackets open.  A scan tells the
outermost of them from the others only, so the same few lemmas serve all scans: what one token does to a
scan in the outermost bracket and further in, and where a scan goes on behind a group.

Principal results: `Scan.run_append_cases` — tokens settle a scan, lead it on, or leave it to the token behind a
bracket; `exists_instead` — what may stand instead of some tokens, such that only its first token is seen.
-/

namespace SolSyntax

open Grammar

/-! ## Scans -/

/-- What lookahead looks for behind a group. -/
def followers : List Tag := [.lparen, .lbracket, .lbrace, .colon, .arrow, .fatArrow]

/-- Whether the bracket that closes the `d` open ones is followed by a tag. -/
def closesBefore (tag : Tag) (ts : List Token) (d : Nat) : Bool :=
  (groupSplit ts d).any fun s => headTag s.2 == tag

/-- Whether the bracket that closes the `d` open ones is followed by an arrow, with a colon before it that is
in the outermost one. -/
def closesParams (ts : List Token) (d : Nat) : Bool :=
  (groupSplit ts d).any fun s => headTag s.2 == .arrow && occursIn .colon s.1 (d - 1)

/-- Whether parameters are what the tokens behind an opening bracket begin with: an arrow follows the bracket that
closes it, and a quote comes first or a colon comes before its end. -/
def opensParams (ts : List Token) : Bool := closesBefore .arrow ts 1 && headTag ts == .quote || closesParams ts 1

/-- Whether an `=` that makes a clause follows. -/
abbrev hasEq (ts : List Token) (d : Nat) : Bool := lineHasIn .eq (.single .lbrace) ts d

/-- What lookahead from before an index finds out about the tokens from there on. -/
inductive Scan where
  /-- Whether the group around the index is followed by a tag. -/
  | follows (tag : Tag)
  /-- Whether an arrow follows it, and a colon comes before its end. -/
  | params
  /-- Whether the line is a clause. -/
  | clause
  /-- Whether the parameter has a type. -/
  | annotated

namespace Scan

/-- What is looked for. -/
def all : List Scan := [params, clause, annotated] ++ followers.map follows

/-- How many brackets are open at least before a scan has ended. -/
def least : Scan → Nat
  | follows _ | params => 1
  | clause | annotated => 0

def run : Scan → List Token → Nat → Bool
  | follows tag => closesBefore tag
  | params => closesParams
  | clause => hasEq
  | annotated => annotatedIn

/-- What a token that is in no inner bracket settles, together with those behind it. -/
def verdict : Scan → Tag → List Token → Option Bool
  | follows tag, t, ts => if t.isClosing then some (headTag ts == tag) else none
  | params, t, ts =>
    if t.isClosing then some false else if t = .colon then some (closesBefore .arrow ts 1) else none
  | clause, t, _ =>
    if t = .eq then some true else if t = .newline ∨ t = .lbrace ∨ t.isClosing then some false else none
  | annotated, t, _ =>
    if t.isClosing ∨ t = .comma then some false else if t = .colon then some true else none

end Scan

section Cons

variable {t : Token} {ts : List Token} {d : Nat}

theorem closesBefore_cons (tag : Tag) : closesBefore tag (t :: ts) d =
    if t.tag.isClosing ∧ d ≤ 1 then headTag ts == tag
    else if t.tag = .eof then false else closesBefore tag ts (t.tag.depthFrom d) := by
  unfold closesBefore
  rw [groupSplit]
  split
  · rfl
  · split
    · rfl
    · cases groupSplit ts (t.tag.depthFrom d) <;> rfl

/-- One bracket less is open inside of the outermost one. -/
theorem Tag.depthFrom_pred {t : Tag} (hd : 0 < d) (h : ¬(t.isClosing ∧ d ≤ 1)) :
    t.depthFrom (d - 1) = t.depthFrom d - 1 := by
  unfold depthFrom
  split
  · omega
  · split
    · rename_i hc
      have : ¬d ≤ 1 := fun hd => h ⟨hc, hd⟩
      omega
    · rfl

theorem closesParams_cons (hd : 0 < d) : closesParams (t :: ts) d =
    if t.tag.isClosing ∧ d ≤ 1 then false
    else if t.tag = .eof then false
    else if d = 1 ∧ t.tag = .colon then closesBefore .arrow ts d
    else closesParams ts (t.tag.depthFrom d) := by
  unfold closesParams closesBefore
  rw [groupSplit]
  split
  · simp [occursIn]
  · rename_i hclose
    split
    · rfl
    · split
      · rename_i hcolon
        rw [hcolon.2, Tag.depthFrom_of_isPlain rfl]
        cases groupSplit ts d with
        | none => rfl
        | some s => simp [occursIn, hcolon.1, hcolon.2, Tag.isOpening, Tag.isClosing]
      · rename_i hcolon
        cases groupSplit ts (t.tag.depthFrom d) with
        | none => rfl
        | some s =>
          have : ¬(d - 1 = 0 ∧ t.tag = .colon ∧ ¬t.tag.isOpening ∧ ¬t.tag.isClosing) :=
            fun h => hcolon ⟨by omega, h.2.1⟩
          simp only [Option.map_some, Option.any_some, occursIn, if_neg this, Tag.depthFrom_pred hd hclose]

end Cons

/-! ### Groups -/

section Groups

variable {o : Token} {ts : List Token}

/-- What is closed already does not matter to what stands behind a group. -/
theorem closesBefore_append {u : List Token} (h : Closes 0 u) (tag : Tag) (ts : List Token) :
    closesBefore tag (u ++ ts) 1 = closesBefore tag ts 1 := by
  unfold closesBefore
  rw [← Nat.zero_add 1, h.groupSplit_eq ts Nat.one_pos]
  cases groupSplit ts 1 <;> rfl

theorem groupThen_of_isOpening (ho : o.tag.isOpening = true) (tag : Tag) (ts : List Token) :
    groupThen tag (o :: ts) = closesBefore tag ts 1 := by
  unfold groupThen closesBefore
  rw [groupSplit, Tag.depthFrom_of_isOpening ho]
  simp only [Tag.isClosing_of_isOpening ho, Tag.ne_eof_of_isOpening ho, Bool.false_eq_true, false_and, if_false]
  cases groupSplit ts 1 <;> rfl

theorem holdsParams_of_isOpening (ho : o.tag.isOpening = true) (ts : List Token) :
    holdsParams (o :: ts) = opensParams ts := by
  unfold holdsParams opensParams closesBefore closesParams
  rw [groupSplit, Tag.depthFrom_of_isOpening ho]
  simp only [Tag.isClosing_of_isOpening ho, Tag.ne_eof_of_isOpening ho, Bool.false_eq_true, false_and, if_false]
  cases groupSplit ts 1 with
  | none => rfl
  | some s => simp [Bool.and_or_distrib_left]

/-- Parameters have an arrow behind them. -/
theorem groupThen_of_holdsParams (h : holdsParams ts = true) : groupThen .arrow ts = true := by
  unfold holdsParams at h
  unfold groupThen
  split at h
  · exact (Bool.and_eq_true_iff.1 h).1
  · cases h

end Groups

namespace Scan

variable {a : Scan} {t : Token} {ts u w : List Token} {d k : Nat}

theorem run_nil (a : Scan) (d : Nat) : a.run [] d = false := by cases a <;> rfl

/-- Every scan ends at an end. -/
theorem run_eof (h : t.tag = .eof) (hd : a.least ≤ d) : a.run (t :: ts) d = false := by
  have hclose : ¬(t.tag.isClosing = true ∧ d ≤ 1) := by
    rw [h]
    exact fun hc => Bool.false_ne_true hc.1
  cases a with
  | follows tag => rw [run, closesBefore_cons, if_neg hclose, if_pos h]
  | params => rw [run, closesParams_cons hd, if_neg hclose, if_pos h]
  | clause => rw [run, hasEq, lineHasIn, if_pos h]
  | annotated => rw [run, annotatedIn, if_pos h]

/-- In an inner bracket a scan goes on. -/
theorem run_inner (h : t.tag ≠ .eof) (hd : a.least < d) : a.run (t :: ts) d = a.run ts (t.tag.depthFrom d) := by
  cases a with
  | follows tag =>
    have hd : 1 < d := hd
    rw [run, closesBefore_cons, if_neg fun hc => by omega, if_neg h]
  | params =>
    have hd : 1 < d := hd
    rw [run, closesParams_cons (by omega), if_neg fun hc => by omega, if_neg h, if_neg fun hc => by omega]
  | clause =>
    have hd : 0 < d := hd
    rw [run, hasEq, lineHasIn, if_neg h, if_neg fun hc => by omega, if_neg fun hc => by omega]
  | annotated =>
    have hd : 0 < d := hd
    rw [run, annotatedIn, if_neg h, if_neg fun hc => by omega, if_neg fun hc => by omega]

/-- In no inner bracket it may be settled. -/
theorem run_outer (h : t.tag ≠ .eof) :
    a.run (t :: ts) a.least = (a.verdict t.tag ts).getD (a.run ts (t.tag.depthFrom a.least)) := by
  cases a with
  | follows tag =>
    simp only [run, least, verdict, closesBefore_cons, Nat.le_refl, and_true, if_neg h]
    split <;> rfl
  | params =>
    simp only [run, least, verdict, closesParams_cons Nat.one_pos, Nat.le_refl, and_true, true_and, if_neg h]
    split
    · rfl
    · split <;> rfl
  | clause =>
    simp only [run, least, verdict, hasEq, lineHasIn, true_and, if_neg h, TagSet.contains_single, beq_iff_eq]
    split
    · rfl
    · simp only [eq_comm (a := Tag.lbrace)]
      split <;> rfl
  | annotated =>
    simp only [run, least, verdict, annotatedIn, true_and, if_neg h]
    split
    · rfl
    · split <;> rfl

theorem isClosing_of_verdict (h : a.verdict t.tag ts = none) : t.tag.isClosing = false := by
  cases hc : t.tag.isClosing with
  | false => rfl
  | true =>
    have hne : t.tag ≠ .eq := fun e => by rw [e] at hc; cases hc
    cases a <;> simp [verdict, hc, hne] at h

/-- A token of an inner bracket does not close the outermost one, -/
theorem least_le_depthFrom (t : Tag) (hd : a.least < d) : a.least ≤ t.depthFrom d := by
  unfold Tag.depthFrom
  split
  · omega
  · split <;> omega

/-- nor does one that settles nothing. -/
theorem least_le_depthFrom_least (h : a.verdict t.tag ts = none) : a.least ≤ t.tag.depthFrom a.least := by
  unfold Tag.depthFrom
  rw [isClosing_of_verdict h]
  split
  · omega
  · exact Nat.le_refl _

/-- Inside of a group a scan does not end. -/
theorem run_of_groupSplit (h : groupSplit ts (k + 1) = some (u, w)) (hd : a.least ≤ d) :
    a.run ts (d + k + 1) = a.run w d := by
  induction ts generalizing k u with
  | nil => cases h
  | cons t ts ih =>
    rw [groupSplit] at h
    split at h
    · rename_i hc
      obtain rfl : k = 0 := by omega
      cases h
      rw [run_inner (Tag.ne_eof_of_isClosing hc.1) (by omega), Tag.depthFrom_of_isClosing hc.1]
      rfl
    · rename_i hc
      split at h
      · cases h
      · rename_i he
        obtain ⟨⟨u', w'⟩, hs, hw⟩ := Option.map_eq_some_iff.1 h
        cases hw
        rw [run_inner he (by omega)]
        obtain ⟨m, hm⟩ : ∃ m, t.tag.depthFrom (k + 1) = m + 1 :=
          Nat.exists_eq_succ_of_ne_zero (Nat.ne_of_gt (Tag.depthFrom_pos (Nat.succ_pos k) hc))
        rw [show d + k + 1 = k + 1 + d by omega, Tag.depthFrom_add (fun _ => Nat.succ_pos k), hm,
          show m + 1 + d = d + m + 1 by omega]
        exact ih (hm ▸ hs)

/-- Where no group ends, nothing is found. -/
theorem run_of_groupSplit_none (h : groupSplit ts k = none) (hk : 0 < k) (hle : k ≤ d) (hd : a.least ≤ d) :
    a.run ts d = false := by
  induction ts generalizing a k d with
  | nil => exact run_nil a d
  | cons t ts ih =>
    by_cases he : t.tag = .eof
    · exact run_eof he hd
    rw [groupSplit] at h
    split at h
    · cases h
    rename_i hc
    rw [Option.map_eq_none_iff] at h
    have hk' : 0 < t.tag.depthFrom k := Tag.depthFrom_pos hk hc
    have hle' : t.tag.depthFrom k ≤ t.tag.depthFrom d := by unfold Tag.depthFrom; grind
    rcases Nat.lt_or_eq_of_le hd with hlt | rfl
    · rw [run_inner he hlt]
      exact ih h hk' hle' (least_le_depthFrom _ hlt)
    · rw [run_outer he]
      cases hv : a.verdict t.tag ts with
      | none => exact ih h hk' hle' (least_le_depthFrom_least hv)
      | some b =>
        -- only a colon may settle something here, and leaves the rest to another scan
        cases a with
        | follows tag =>
          have hcl : ¬t.tag.isClosing = true := fun hcl => hc ⟨hcl, hle⟩
          simp [verdict, hcl] at hv
        | params =>
          have hcl : ¬t.tag.isClosing = true := fun hcl => hc ⟨hcl, hle⟩
          simp only [verdict, hcl, Bool.false_eq_true, if_false] at hv
          split at hv
          · rename_i hcolon
            cases hv
            rw [hcolon, Tag.depthFrom_of_isPlain rfl] at h
            exact ih (a := .follows .arrow) h hk hle (Nat.le_refl _)
          · cases hv
        | clause => exact absurd hle (Nat.not_le_of_gt hk)
        | annotated => exact absurd hle (Nat.not_le_of_gt hk)

/-- So they have if some brackets are open. -/
theorem closesBefore_of_closesParams (h : closesParams ts d = true) : closesBefore .arrow ts d = true := by
  unfold closesParams at h
  unfold closesBefore
  cases hgroup : groupSplit ts d with
  | none => rw [hgroup] at h; cases h
  | some s =>
    rw [hgroup] at h
    exact (Bool.and_eq_true_iff.1 h).1

/-! ### What tokens do to a scan -/

/-- Whether a token that is in no inner bracket ends the scan. -/
def settles : Scan → Tag → Bool
  | follows _, t => t.isClosing
  | params, t => t.isClosing || t == .colon
  | clause, t => t == .eq || t == .newline || t == .lbrace || t.isClosing
  | annotated, t => t.isClosing || t == .comma || t == .colon

theorem verdict_eq_none_iff {t : Tag} : a.verdict t ts = none ↔ a.settles t = false := by
  cases a <;> cases t <;> simp [verdict, settles, Tag.isClosing]

/-- What a token settles that is in no bracket. -/
theorem run_of_verdict {c : Bool} (ha : a.least = 0) (hc : a.verdict t.tag [] = some c) (ts : List Token) :
    a.run (t :: ts) a.least = c := by
  have hverdict : a.verdict t.tag ts = a.verdict t.tag [] := by cases a <;> first | rfl | cases ha
  have he : t.tag ≠ .eof := by
    rintro he
    rw [he] at hc
    cases a <;> simp [verdict, Tag.isClosing] at hc
  rw [run_outer he, hverdict, hc]
  rfl

/-- Past some tokens a scan goes on, perhaps as another one, with some brackets open. -/
inductive Leads : Scan → Nat → List Token → Scan → Nat → Prop
  | nil (a : Scan) (d : Nat) : Leads a d [] a d
  | inner {a b : Scan} {t v d e} : t.tag ≠ .eof → a.least < d → Leads a (t.tag.depthFrom d) v b e →
      Leads a d (t :: v) b e
  | outer {a b : Scan} {t v e} : t.tag ≠ .eof → a.settles t.tag = false → Leads a (t.tag.depthFrom a.least) v b e →
      Leads a a.least (t :: v) b e
  /-- Behind a colon only the arrow is left to be found. -/
  | colon {b : Scan} {t v e} : t.tag = .colon → Leads (follows .arrow) 1 v b e → Leads params 1 (t :: v) b e

/-- **Tokens settle a scan, lead it on, or leave it to the token behind the bracket that they end with.** -/
theorem run_append_cases (a : Scan) (v : List Token) (hd : a.least ≤ d) :
    (∃ b e, Leads a d v b e ∧ b.least ≤ e) ∨ (∃ c, ∀ x, a.run (v ++ x) d = c) ∨
      ∃ tag w t, v = w ++ [t] ∧ t.tag.isClosing = true ∧ Leads a d w (follows tag) 1 := by
  induction v generalizing a d with
  | nil => exact .inl ⟨a, d, .nil a d, hd⟩
  | cons t v ih =>
    by_cases he : t.tag = .eof
    · exact .inr (.inl ⟨false, fun x => run_eof he hd⟩)
    -- what the tokens behind the first one do, the whole does
    have pass {a' : Scan} {d' : Nat} (hd' : a'.least ≤ d')
        (leads : ∀ {v b e}, Leads a' d' v b e → Leads a d (t :: v) b e)
        (hrun : ∀ x, a.run (t :: x) d = a'.run x d') :
        (∃ b e, Leads a d (t :: v) b e ∧ b.least ≤ e) ∨ (∃ c, ∀ x, a.run (t :: v ++ x) d = c) ∨
          ∃ tag w t', t :: v = w ++ [t'] ∧ t'.tag.isClosing = true ∧ Leads a d w (follows tag) 1 := by
      obtain ⟨b, e, hleads, he⟩ | ⟨c, hc⟩ | ⟨tag, w, t', rfl, ht', hleads⟩ := ih a' hd'
      · exact .inl ⟨b, e, leads hleads, he⟩
      · exact .inr (.inl ⟨c, fun x => (hrun _).trans (hc x)⟩)
      · exact .inr (.inr ⟨tag, t :: w, t', rfl, ht', leads hleads⟩)
    -- what the first one settles in no bracket, is settled
    have settled {a : Scan} (ha : a.least = 0) (hs : a.settles t.tag = true) :
        ∃ c, ∀ x, a.run (t :: v ++ x) a.least = c := by
      cases hnone : a.verdict t.tag [] with
      | none => rw [verdict_eq_none_iff.1 hnone] at hs; cases hs
      | some c => exact ⟨c, fun x => run_of_verdict ha hnone (v ++ x)⟩
    rcases Nat.lt_or_eq_of_le hd with hlt | rfl
    · exact pass (least_le_depthFrom _ hlt) (.inner he hlt) fun x => run_inner he hlt
    cases hs : a.settles t.tag with
    | false =>
      have hv (x : List Token) : a.verdict t.tag x = none := verdict_eq_none_iff.2 hs
      exact pass (least_le_depthFrom_least (hv [])) (.outer he hs) fun x => by rw [run_outer he, hv x]; rfl
    | true =>
      cases a with
      | follows tag =>
        have hc : t.tag.isClosing = true := hs
        cases v with
        | nil => exact .inr (.inr ⟨tag, [], t, rfl, hc, .nil _ _⟩)
        | cons t' v =>
          refine .inr (.inl ⟨t'.tag == tag, fun x => ?_⟩)
          rw [List.cons_append, run_outer he, verdict, if_pos hc]
          rfl
      | params =>
        cases hc : t.tag.isClosing with
        | true => exact .inr (.inl ⟨false, fun x => by rw [List.cons_append, run_outer he, verdict, if_pos hc]; rfl⟩)
        | false =>
          have hcolon : t.tag = .colon := by simpa [settles, hc] using hs
          refine pass (Nat.le_refl (follows .arrow).least) (.colon hcolon) fun x => ?_
          rw [run_outer he, verdict, hc, hcolon]
          rfl
      | clause => exact .inr (.inl (settled rfl hs))
      | annotated => exact .inr (.inl (settled rfl hs))

theorem follows_mem_all {tag : Tag} (h : tag ∈ followers) : follows tag ∈ all :=
  List.mem_append_right _ (List.mem_map_of_mem h)

theorem mem_followers {tag : Tag} (h : follows tag ∈ all) : tag ∈ followers := by
  simpa [all] using h

namespace Leads

variable {b : Scan} {v : List Token} {e : Nat}

/-- What comes behind the tokens decides. -/
theorem run_eq (h : Leads a d v b e) (x : List Token) : a.run (v ++ x) d = b.run x e := by
  induction h with
  | nil => rfl
  | inner he hlt _ ih => rw [List.cons_append, run_inner he hlt, ih]
  | outer he hs _ ih =>
    rw [List.cons_append, run_outer he, verdict_eq_none_iff.2 hs]
    exact ih
  | @colon _ t _ _ hcolon _ ih =>
    have he : t.tag ≠ .eof := hcolon ▸ nofun
    rw [List.cons_append, show (1 : Nat) = params.least from rfl, run_outer he, verdict, hcolon]
    exact ih

/-- A scan leads to one that is looked for as well. -/
theorem mem_all (h : Leads a d v b e) (ha : a ∈ all) : b ∈ all := by
  induction h with
  | nil => exact ha
  | inner _ _ _ ih => exact ih ha
  | outer _ _ _ ih => exact ih ha
  | colon _ _ ih => exact ih (follows_mem_all (by decide))

/-- A scan that is in no bracket leads to none but itself. -/
theorem eq_of_least (h : Leads a d v b e) (ha : a.least = 0) : b = a := by
  induction h with
  | nil => rfl
  | inner _ _ _ ih => exact ih ha
  | outer _ _ _ ih => exact ih ha
  | colon => cases ha

/-- Nor does one for what stands behind a group. -/
theorem eq_follows {tag : Tag} (h : Leads (follows tag) d v b e) : b = follows tag := by
  generalize ha : follows tag = a at h
  induction h with
  | nil => rfl
  | inner _ _ _ ih => exact ih ha
  | outer _ _ _ ih => exact ih ha
  | colon => cases ha

theorem least_eq (h : Leads a d v b e) : b.least = a.least := by
  induction h with
  | nil => rfl
  | inner _ _ _ ih => exact ih
  | outer _ _ _ ih => exact ih
  | colon _ _ ih => exact ih

/-- Some tokens, and then the others. -/
theorem append {u : List Token} (h : Leads a d (u ++ v) b e) : ∃ c k, Leads a d u c k ∧ Leads c k v b e := by
  induction u generalizing a d with
  | nil => exact ⟨a, d, .nil a d, h⟩
  | cons t u ih =>
    cases h with
    | inner he hlt h =>
      obtain ⟨c, k, hu, hv⟩ := ih h
      exact ⟨c, k, .inner he hlt hu, hv⟩
    | outer he hs h =>
      obtain ⟨c, k, hu, hv⟩ := ih h
      exact ⟨c, k, .outer he hs hu, hv⟩
    | colon hcolon h =>
      obtain ⟨c, k, hu, hv⟩ := ih h
      exact ⟨c, k, .colon hcolon hu, hv⟩

/-- Tokens that close some brackets leave the others open. -/
theorem depth_eq {j m : Nat} (h : Leads a d v b e) (hv : Closes j v) (hd : d = j + m) : e = m := by
  induction h generalizing j with
  | nil =>
    obtain rfl : j = 0 := hv
    omega
  | inner _ _ _ ih => exact ih hv.2.2 (by rw [hd, Tag.depthFrom_add hv.2.1])
  | outer _ _ _ ih => exact ih hv.2.2 (by rw [hd, Tag.depthFrom_add hv.2.1])
  | @colon _ t v _ hcolon _ ih =>
    have hplain : t.tag.isPlain = true := by rw [hcolon]; rfl
    refine ih (j := j) ?_ hd
    rw [← Tag.depthFrom_of_isPlain hplain j]
    exact hv.2.2

/-- A scan that gets to where no inner bracket is open, has passed all that close. -/
theorem closes (h : Leads a d v b e) (he : e = b.least) (hd : a.least ≤ d) : Closes (d - a.least) v := by
  induction h with
  | nil => exact Nat.sub_eq_zero_of_le (Nat.le_of_eq he)
  | @inner a _ t _ d _ hne hlt _ ih =>
    have hdepth : t.tag.depthFrom d = t.tag.depthFrom (d - a.least) + a.least := by
      rw [← Tag.depthFrom_add fun _ => Nat.sub_pos_of_lt hlt, Nat.sub_add_cancel hd]
    refine ⟨hne, fun _ => Nat.sub_pos_of_lt hlt, ?_⟩
    have hcloses := ih he (least_le_depthFrom _ hlt)
    rwa [hdepth, Nat.add_sub_cancel] at hcloses
  | @outer a _ t v _ hne hs _ ih =>
    have hnone : a.verdict t.tag v = none := verdict_eq_none_iff.2 hs
    have hclosing := isClosing_of_verdict hnone
    have hdepth : t.tag.depthFrom a.least = t.tag.depthFrom 0 + a.least := by
      rw [← Tag.depthFrom_add (fun hc => by rw [hclosing] at hc; cases hc), Nat.zero_add]
    rw [Nat.sub_self, Closes]
    refine ⟨hne, fun hc => (by rw [hclosing] at hc; cases hc), ?_⟩
    have hcloses := ih he (least_le_depthFrom_least hnone)
    rwa [hdepth, Nat.add_sub_cancel] at hcloses
  | @colon _ t _ _ hcolon _ ih =>
    have hplain : t.tag.isPlain = true := by rw [hcolon]; rfl
    rw [Closes]
    refine ⟨Tag.ne_eof_of_isPlain hplain, fun hc => (by rw [hcolon] at hc; cases hc), ?_⟩
    rw [Tag.depthFrom_of_isPlain hplain]
    exact ih he (Nat.le_refl 1)

/-- A scan for parameters goes on as such only where there is no colon. -/
theorem occursIn_eq_false (h : Leads a d v b e) (ha : a = params) (hb : b = params) (hd : 1 ≤ d) :
    occursIn .colon v (d - 1) = false := by
  induction h with
  | nil => rfl
  | @inner a b t v d e he hlt h ih =>
    subst ha
    have hlt : 1 < d := hlt
    rw [occursIn, if_neg fun hc => by omega, Tag.depthFrom_pred hd fun hc => by omega]
    exact ih rfl hb (least_le_depthFrom (a := params) t.tag hlt)
  | @outer a b t v e he hs h ih =>
    subst ha
    have hnone : params.verdict t.tag v = none := verdict_eq_none_iff.2 hs
    have hclosing := isClosing_of_verdict hnone
    have hcolon : t.tag ≠ .colon := fun e => by rw [settles, e] at hs; simp at hs
    rw [occursIn, if_neg fun hc => hcolon hc.2.1, Tag.depthFrom_pred hd fun hc => by rw [hclosing] at hc; cases hc.1]
    exact ih rfl hb (least_le_depthFrom_least (a := params) hnone)
  | @colon b t v e hcolon h =>
    rw [h.eq_follows] at hb
    cases hb

/-- The next token, in no bracket, does not end the scan. -/
theorem settles_eq_false (h : Leads a a.least (t :: v) b e) (ha : a.least = 0) :
    t.tag ≠ .eof ∧ a.settles t.tag = false := by
  cases h with
  | inner _ hlt => exact absurd hlt (Nat.lt_irrefl _)
  | outer he hs => exact ⟨he, hs⟩
  | colon => cases ha

end Leads

end Scan

/-! ## Other tokens instead -/

/-- What a scan may tell of a token that stands instead of another: all that settles it but a bracket that
closes a group, as what stands behind the group may be as before. -/
def Scan.tells : Scan → Tag → Bool
  | follows _, _ => false
  | a, t => a.settles t

theorem Scan.tells_of_least {a : Scan} (ha : a.least = 0) : a.tells = a.settles := by
  cases a <;> first | rfl | cases ha

/-- Some tokens, of which the first has a tag, may stand instead of others: no scan tells more than that tag. -/
def Instead (g : Tag) (x y : List Token) : Prop :=
  ∀ a ∈ Scan.all, ∀ d, a.least ≤ d → a.run y d = a.run x d ∨ d = a.least ∧ a.tells g = true ∨ g = .eof

section Instead

variable {t : Token} {x y w : List Token}

/-- **A scan sees the tag only, unless it ends right before it.** -/
theorem Instead.append_cases {g : Tag} (h : Instead g x y) {a : Scan} (ha : a ∈ Scan.all) (v : List Token) {d : Nat}
    (hd : a.least ≤ d) :
    a.run (v ++ y) d = a.run (v ++ x) d ∨
      (∃ b e, a.Leads d v b e ∧ b.least ≤ e ∧ (e = b.least ∧ b.tells g = true ∨ g = .eof)) ∨
      ∃ tag u c, v = u ++ [c] ∧ c.tag.isClosing = true ∧ a.Leads d u (.follows tag) 1 := by
  obtain ⟨b, e, hleads, he⟩ | ⟨c, hc⟩ | hgroup := a.run_append_cases v hd
  · obtain hsame | htells := h b (hleads.mem_all ha) e he
    · exact .inl (by rw [hleads.run_eq, hleads.run_eq, hsame])
    · exact .inr (.inl ⟨b, e, hleads, he, htells⟩)
  · exact .inl ((hc y).trans (hc x).symm)
  · exact .inr (.inr hgroup)

/-! ### What tells groups apart -/

/-- Tokens behind an opening bracket, up to the one that closes it. -/
def Ended (v : List Token) : Prop := ∃ u c, v = u ++ [c] ∧ c.tag.isClosing = true ∧ Closes 0 u

/-- Tokens behind an opening bracket that do not close it. -/
def Unclosed (v : List Token) : Prop := ∃ a b e, a.least = 1 ∧ Scan.Leads a 1 v b e

section Groups

variable {g : Tag} {v : List Token} (h : Instead g x y) (hg : headTag y = g)
include h hg

omit h in
/-- At an end every scan ends. -/
theorem run_eq_false_of_headTag (heof : g = .eof) {a : Scan} {d : Nat} (hd : a.least ≤ d) : a.run y d = false := by
  cases y with
  | nil => exact a.run_nil d
  | cons t y => exact a.run_eof (hg.trans heof) hd

/-- What stands behind a group is told apart only if it ends there, or does not end at all. -/
theorem Instead.closesBefore_ne {tag : Tag} (htag : tag ∈ followers)
    (hne : closesBefore tag (v ++ y) 1 ≠ closesBefore tag (v ++ x) 1) :
    Ended v ∨ g = .eof ∧ Unclosed v ∧ closesBefore tag (v ++ y) 1 = false := by
  obtain hsame | ⟨b, e, hleads, he, htells⟩ | ⟨tag', u, c, hu, hc, hleads⟩ :=
    h.append_cases (Scan.follows_mem_all htag) v (Nat.le_refl 1)
  · exact absurd hsame hne
  · obtain rfl := hleads.eq_follows
    obtain ⟨-, ⟨⟩⟩ | heof := htells
    exact .inr ⟨heof, ⟨_, _, _, rfl, hleads⟩, (hleads.run_eq y).trans (run_eq_false_of_headTag hg heof he)⟩
  · exact .inl ⟨u, c, hu, hc, hleads.closes rfl (Nat.le_refl 1)⟩

theorem Instead.closesParams_ne (hne : closesParams (v ++ y) 1 ≠ closesParams (v ++ x) 1) :
    Ended v ∨ g = .eof ∧ Unclosed v ∧ closesParams (v ++ y) 1 = false ∨
      Scan.Leads .params 1 v .params 1 ∧ (g.isClosing = true ∨ g = .colon) := by
  obtain hsame | ⟨b, e, hleads, he, htells⟩ | ⟨tag', u, c, hu, hc, hleads⟩ :=
    h.append_cases (a := .params) (by simp [Scan.all]) v (Nat.le_refl 1)
  · exact absurd hsame hne
  · obtain ⟨rfl, hseen⟩ | heof := htells
    · refine .inr (.inr ?_)
      have hleast : b.least = 1 := hleads.least_eq
      cases b with
      | follows => cases hseen
      | params => exact ⟨hleads, by simpa [Scan.tells, Scan.settles] using hseen⟩
      | clause | annotated => cases hleast
    · exact .inr (.inl ⟨heof, ⟨_, _, _, rfl, hleads⟩, (hleads.run_eq y).trans (run_eq_false_of_headTag hg heof he)⟩)
  · exact .inl ⟨u, c, hu, hc, hleads.closes rfl (Nat.le_refl 1)⟩

/-- Whether parentheses hold parameters is told apart by what stands behind them or first in them, or by a colon in
them. -/
theorem Instead.opensParams_ne (hne : opensParams (v ++ y) ≠ opensParams (v ++ x)) :
    Ended v ∨
      opensParams (v ++ x) = true ∧ (g = .eof ∧ Unclosed v ∨ v = [] ∧ headTag x = .quote ∨
        g.isClosing = true ∧ Closes 0 v ∧ occursIn .colon v 0 = false ∧ (v ≠ [] → headTag v ≠ .quote)) ∨
      opensParams (v ++ x) = false ∧ Closes 0 v ∧ (g = .quote ∨ g = .colon) := by
  have hleft : closesParams (v ++ x) 1 = true → closesBefore .arrow (v ++ x) 1 = true :=
    Scan.closesBefore_of_closesParams
  have hright : closesParams (v ++ y) 1 = true → closesBefore .arrow (v ++ y) 1 = true :=
    Scan.closesBefore_of_closesParams
  unfold opensParams at *
  by_cases harrow : closesBefore .arrow (v ++ y) 1 = closesBefore .arrow (v ++ x) 1
  swap
  · obtain hended | ⟨heof, hunclosed, hfalse⟩ := h.closesBefore_ne hg (by decide) harrow
    · exact .inl hended
    · exact .inr (.inl ⟨by grind, .inl ⟨heof, hunclosed⟩⟩)
  by_cases hparams : closesParams (v ++ y) 1 = closesParams (v ++ x) 1
  · -- only the first token tells them apart, so it is the one that is told apart itself
    cases v with
    | cons t v => exact absurd (by rw [harrow, hparams]; rfl) hne
    | nil =>
      rw [List.nil_append, List.nil_append] at *
      by_cases hquote : headTag x = .quote
      · exact .inr (.inl ⟨by grind, .inr (.inl ⟨rfl, hquote⟩)⟩)
      · exact .inr (.inr ⟨by grind, rfl, .inl (by grind)⟩)
  obtain hended | ⟨heof, hunclosed, hfalse⟩ | ⟨hleads, hclosing | hcolon⟩ := h.closesParams_ne hg hparams
  · exact .inl hended
  · exact .inr (.inl ⟨by grind, .inl ⟨heof, hunclosed⟩⟩)
  · have hcloses : Closes 0 v := hleads.closes rfl (Nat.le_refl 1)
    have hfalse : closesParams (v ++ y) 1 = false := by
      refine (hleads.run_eq y).trans ?_
      cases y with
      | nil => rfl
      | cons o y =>
        rw [Scan.run, closesParams_cons Nat.one_pos, if_pos ⟨by rwa [show o.tag = g from hg], Nat.le_refl 1⟩]
    refine .inr (.inl ⟨by grind, .inr (.inr ⟨hclosing, hcloses, hleads.occursIn_eq_false rfl rfl (Nat.le_refl 1),
      fun hv hquote => hne ?_⟩)⟩)
    have hhead (z : List Token) : headTag (v ++ z) = .quote := by
      obtain ⟨t, v, rfl⟩ := List.exists_cons_of_ne_nil hv
      exact hquote
    grind
  · have hcloses : Closes 0 v := hleads.closes rfl (Nat.le_refl 1)
    have hsame : closesParams (v ++ y) 1 = closesBefore .arrow (v ++ y) 1 := by
      refine (hleads.run_eq y).trans ?_
      rw [closesBefore_append hcloses]
      cases y with
      | nil => rfl
      | cons o y =>
        have ho : o.tag = .colon := Eq.trans hg hcolon
        rw [Scan.run, closesParams_cons Nat.one_pos, closesBefore_cons, ho]
        rfl
    exact .inr (.inr ⟨by grind, hcloses, .inr hcolon⟩)

end Groups

/-- A token that nothing is looked for in, and that does not touch the one before it. -/
def spacer (t : Token) : Token := ⟨.ident ⟨0⟩, ⟨t.span.stop + 1, t.span.stop + 1⟩, t.position⟩

theorem Scan.run_spacer (a : Scan) (t : Token) (x : List Token) {d : Nat} (hd : a.least ≤ d) :
    a.run (spacer t :: x) d = a.run x d := by
  have hplain : (spacer t).tag.isPlain = true := rfl
  rcases Nat.lt_or_eq_of_le hd with hlt | rfl
  · rw [run_inner (Tag.ne_eof_of_isPlain hplain) hlt, Tag.depthFrom_of_isPlain hplain]
  · have hnone : a.verdict (spacer t).tag x = none := verdict_eq_none_iff.2 (by cases a <;> rfl)
    rw [run_outer (Tag.ne_eof_of_isPlain hplain), hnone, Tag.depthFrom_of_isPlain hplain]
    rfl

/-- A token that is no bracket, and then those that stood there. -/
theorem Instead.plain (ht : t.tag.isPlain = true) : Instead t.tag x (t :: spacer t :: x) := by
  intro a _ d hd
  have he := Tag.ne_eof_of_isPlain ht
  rcases Nat.lt_or_eq_of_le hd with hlt | rfl
  · rw [Scan.run_inner he hlt, Tag.depthFrom_of_isPlain ht]
    exact .inl (a.run_spacer t x hd)
  · cases hs : a.settles t.tag with
    | false =>
      rw [Scan.run_outer he, Scan.verdict_eq_none_iff.2 hs, Tag.depthFrom_of_isPlain ht]
      exact .inl (a.run_spacer t x hd)
    | true =>
      refine .inr (.inl ⟨rfl, ?_⟩)
      cases a with
      | follows tag =>
        rw [Tag.isPlain, show t.tag.isClosing = true from hs, Bool.not_true, Bool.and_false, Bool.false_and] at ht
        cases ht
      | params | clause | annotated => exact hs

/-- An empty group. -/
theorem Instead.group {c : Token} (ho : t.tag.isOpening = true) (hc : c.tag.isClosing = true) :
    Instead t.tag x (t :: c :: x) := by
  intro a _ d hd
  have he := Tag.ne_eof_of_isOpening ho
  have inside : a.run (c :: x) (d + 1) = a.run x d := by
    rw [Scan.run_inner (Tag.ne_eof_of_isClosing hc) (by omega), Tag.depthFrom_of_isClosing hc]
    rfl
  rcases Nat.lt_or_eq_of_le hd with hlt | rfl
  · rw [Scan.run_inner he hlt, Tag.depthFrom_of_isOpening ho]
    exact .inl inside
  · cases hs : a.settles t.tag with
    | false =>
      rw [Scan.run_outer he, Scan.verdict_eq_none_iff.2 hs, Tag.depthFrom_of_isOpening ho]
      exact .inl inside
    | true =>
      refine .inr (.inl ⟨rfl, ?_⟩)
      cases a with
      | follows tag => rw [Scan.settles, Tag.isClosing_of_isOpening ho] at hs; cases hs
      | params | clause | annotated => exact hs

/-- The end of a group, and then what stands behind that. -/
theorem Instead.close (hc : t.tag.isClosing = true)
    (hrest : ∀ a : Scan, ∀ d, a.least ≤ d → a.run w d = a.run x (d + 1))
    (hhead : ∀ tag ∈ followers, (headTag w == tag) = closesBefore tag x 1) : Instead t.tag x (t :: w) := by
  intro a ha d hd
  have he := Tag.ne_eof_of_isClosing hc
  rcases Nat.lt_or_eq_of_le hd with hlt | rfl
  · obtain ⟨d, rfl⟩ : ∃ d', d = d' + 1 := Nat.exists_eq_succ_of_ne_zero (by omega)
    rw [Scan.run_inner he hlt, Tag.depthFrom_of_isClosing hc]
    exact .inl (hrest a d (Nat.le_of_lt_succ hlt))
  · cases a with
    | follows tag =>
      refine .inl ?_
      rw [Scan.run_outer he, Scan.verdict, if_pos hc]
      exact hhead tag (Scan.mem_followers ha)
    | params | clause | annotated => exact .inr (.inl ⟨rfl, by simp [Scan.tells, Scan.settles, hc]⟩)

theorem endsInEof_cons (h : (TokenList.ofTokens x).EndsInEof) (t : Token) :
    (TokenList.ofTokens (t :: x)).EndsInEof := by
  obtain ⟨last, hlast, hkind⟩ := h
  refine ⟨last, ?_, hkind⟩
  show (t :: x).getLast? = some last
  rw [List.getLast?_cons, show x.getLast? = some last from hlast]
  rfl

/-- A bracket is no end, so more comes behind it. -/
theorem endsInEof_of_groupSplit {u : List Token} {d : Nat} (h : (TokenList.ofTokens x).EndsInEof)
    (hgroup : groupSplit x d = some (u, w)) : (TokenList.ofTokens w).EndsInEof := by
  obtain ⟨c, rfl, hc⟩ := Cursor.groupSplit_eq_append hgroup
  obtain ⟨last, hlast, hkind⟩ := h
  have hlast : (u ++ c :: w).getLast? = some last := hlast
  cases w with
  | nil =>
    rw [List.getLast?_concat, Option.some.injEq] at hlast
    rw [hlast, Token.tag, hkind] at hc
    cases hc
  | cons t w => exact ⟨last, by rwa [List.getLast?_append_cons, List.getLast?_cons_cons] at hlast, hkind⟩

/-- **Any token may come first of some that may stand instead of others.** -/
theorem exists_instead (t : Token) (hend : (TokenList.ofTokens x).EndsInEof) :
    ∃ y, Instead t.tag x (t :: y) ∧ (TokenList.ofTokens (t :: y)).EndsInEof ∧
      (t.tag = .dot → ∃ n r, y = n :: r ∧ t.span.stop ≠ n.span.start) := by
  by_cases heof : t.tag = .eof
  · refine ⟨[], fun _ _ _ _ => .inr (.inr heof), ⟨t, rfl, TokenKind.eq_of_tag heof rfl⟩, fun e => ?_⟩
    rw [heof] at e
    cases e
  by_cases ho : t.tag.isOpening = true
  · refine ⟨⟨.rparen, t.span, t.position⟩ :: x, .group ho rfl, endsInEof_cons (endsInEof_cons hend _) _, fun e => ?_⟩
    rw [e] at ho
    cases ho
  by_cases hc : t.tag.isClosing = true
  · have hdot : t.tag ≠ .dot := fun e => by rw [e] at hc; cases hc
    -- the rest of the group is left out, or an end comes at once if there is none
    cases hgroup : groupSplit x 1 with
    | some s =>
      exact ⟨s.2, .close hc (fun a d hd => (Scan.run_of_groupSplit hgroup hd).symm)
        (fun tag _ => by simp [closesBefore, hgroup]), endsInEof_cons (endsInEof_of_groupSplit hend hgroup) _,
        fun e => absurd e hdot⟩
    | none =>
      refine ⟨[⟨.eof, t.span, t.position⟩], .close hc (fun a d hd => ?_) (fun tag htag => ?_), ⟨_, rfl, rfl⟩,
        fun e => absurd e hdot⟩
      · rw [Scan.run_eof rfl hd]
        exact (Scan.run_of_groupSplit_none hgroup Nat.one_pos (Nat.le_add_left 1 d) (Nat.le_succ_of_le hd)).symm
      · rw [closesBefore, hgroup]
        exact (by decide : ∀ tag ∈ followers, (Tag.eof == tag) = false) tag htag
  · have ht : t.tag.isPlain = true := by simp [Tag.isPlain, ho, hc, heof]
    exact ⟨spacer t :: x, .plain ht, endsInEof_cons (endsInEof_cons hend _) _,
      fun _ => ⟨_, _, rfl, Nat.ne_of_lt (Nat.lt_succ_self _)⟩⟩

end Instead

end SolSyntax
