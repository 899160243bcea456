import SolSyntax.Proofs.Modules

/-!
# Recovery makes progress

After an error the loop over declarations may go back, but never to where the declaration started:
it goes on at a line break behind that, or at the last token.  So every pass begins further on than
the one before, and all passes but the first begin at line breaks of their own.

Principal results: `resyncPoint_spec` — where parsing goes on; `parse_lenient_passes` — the passes of
a lenient parse.
-/

namespace SolSyntax

namespace Resync

variable {tags : Array Nat} {i j start stop : Nat}

theorem lt_of_isBreak (h : isBreak tags i = true) : i < tags.size := by
  have : tags[i]? = some Tag.newline.index := eq_of_beq h
  exact (Array.getElem?_eq_some_iff.1 this).1

theorem topBreakFrom_spec {errorIndex depth : Nat} (h : topBreakFrom tags errorIndex i depth = some j) :
    i ≤ j ∧ errorIndex ≤ j ∧ isBreak tags j = true := by
  fun_induction topBreakFrom tags errorIndex i depth with
  | case1 i _ _ _ ih | case2 i _ _ _ _ _ ih | case3 i _ _ _ _ _ _ ih | case5 i _ _ _ _ _ _ _ ih =>
    obtain ⟨hle, herror, hb⟩ := ih h
    exact ⟨Nat.le_of_succ_le hle, herror, hb⟩
  | case4 i depth hi tag htag _ _ hbreak =>
    cases h
    refine ⟨Nat.le_refl _, hbreak.2.2, ?_⟩
    rw [isBreak, Array.getElem?_eq_getElem hi, ← Tag.index_of_ofIndex? htag, hbreak.1]
    exact beq_self_eq_true _
  | case6 => cases h

theorem breakFrom_spec (h : breakFrom tags i = some j) : i ≤ j ∧ isBreak tags j = true := by
  fun_induction breakFrom tags i with
  | case1 i hi hb =>
    cases h
    exact ⟨Nat.le_refl _, hb⟩
  | case2 i hi hb ih =>
    obtain ⟨hle, hb⟩ := ih h
    exact ⟨Nat.le_of_succ_le hle, hb⟩
  | case3 => cases h

theorem breakBefore_spec (h : breakBefore tags start stop = some j) :
    start < j ∧ j < stop ∧ isBreak tags j = true := by
  induction stop with
  | zero => cases h
  | succ stop ih =>
    unfold breakBefore at h
    split at h
    · cases h
    · split at h
      · rename_i hb
        cases h
        exact ⟨by omega, Nat.lt_succ_self _, hb⟩
      · obtain ⟨hlt, hlt', hb⟩ := ih h
        exact ⟨hlt, Nat.lt_succ_of_lt hlt', hb⟩

/-- The last line break before an index is not before any other one there. -/
theorem exists_of_breakBefore (hi : start < i) (hstop : i < stop) (hb : isBreak tags i = true) :
    ∃ j, breakBefore tags start stop = some j ∧ i ≤ j := by
  induction stop with
  | zero => omega
  | succ stop ih =>
    rw [breakBefore, if_neg (by omega)]
    by_cases hs : isBreak tags stop = true
    · exact ⟨stop, if_pos hs, by omega⟩
    · rw [if_neg hs]
      refine ih (Nat.lt_of_le_of_ne (Nat.le_of_lt_succ hstop) ?_)
      rintro rfl
      exact hs hb

theorem exists_of_breakFrom (hle : i ≤ j) (hb : isBreak tags j = true) :
    ∃ k, breakFrom tags i = some k := by
  fun_induction breakFrom tags i with
  | case1 i => exact ⟨i, rfl⟩
  | case2 i hi hne ih =>
    refine ih (Nat.lt_of_le_of_ne hle ?_)
    rintro rfl
    exact hne hb
  | case3 i hi => exact absurd (Nat.lt_of_le_of_lt hle (lt_of_isBreak hb)) hi

end Resync

/-- Parsing goes on at a line break after the start of the declaration, or at the last token. -/
theorem resyncPoint_spec {tags : Array Nat} {declStart errorIndex : Nat}
    (hstart : declStart + 1 < tags.size) (herror : declStart ≤ errorIndex)
    (hbreak : Resync.isBreak tags declStart = false) :
    declStart < resyncPoint tags declStart errorIndex ∧
      (Resync.isBreak tags (resyncPoint tags declStart errorIndex) = true ∨
        resyncPoint tags declStart errorIndex + 1 = tags.size) := by
  have away : ∀ {i}, declStart ≤ i → Resync.isBreak tags i = true → declStart < i := by
    intro i hle hb
    refine Nat.lt_of_le_of_ne hle fun e => ?_
    rw [e, hb] at hbreak
    cases hbreak
  unfold resyncPoint
  split
  · rename_i i hi
    have h := Resync.topBreakFrom_spec hi
    exact ⟨away h.1 h.2.2, .inl h.2.2⟩
  · split
    · rename_i i hi
      have h := Resync.breakFrom_spec hi
      exact ⟨away (Nat.le_trans herror h.1) h.2, .inl h.2⟩
    · cases hlast : Resync.breakBefore tags declStart (min errorIndex tags.size) with
      | some i =>
        have h := Resync.breakBefore_spec hlast
        exact ⟨h.1, .inl h.2.2⟩
      | none =>
        rw [Option.getD_none]
        exact ⟨by omega, .inr (by omega)⟩

open Grammar

/-! ## Passes of the loop -/

/-- How a pass of the loop ends. -/
inductive PassEnd where
  /-- There is nothing left. -/
  | ended
  | read (d : Decl)
  /-- An error, and the index that is handed to the cursor to go on. -/
  | resumed (e : SyntaxError) (index : Nat)

/-- A pass of the loop: where it begins, where its declaration starts, and how it ends. -/
structure Pass where
  start : Nat
  declStart : Nat
  outcome : PassEnd

def PassEnd.decl? : PassEnd → Option Decl
  | read d => some d
  | _ => none

def PassEnd.error? : PassEnd → Option SyntaxError
  | resumed e _ => some e
  | _ => none

/-- The declarations that some passes read. -/
def readIn (ps : List Pass) : List Decl := ps.filterMap (·.outcome.decl?)

/-- The errors that some passes took down. -/
def errorsIn (ps : List Pass) : List SyntaxError := ps.filterMap (·.outcome.error?)

/-- One pass of the loop, from one state to the next. -/
inductive Passed (r : Rules) (tags : Array Nat) (s : State) : Pass → State → Prop
  | read {d s'} : (skipped s).cursor.isAtEnd = false → declLine r (skipped s) = .ok d s' →
      Passed r tags s ⟨s.cursor.position, (skipped s).cursor.position, .read d⟩ s'
  | resumed {e s'} : (skipped s).cursor.isAtEnd = false →
      declLine r (skipped s) = .error (.error e) s' →
      Passed r tags s
        ⟨s.cursor.position, (skipped s).cursor.position,
          .resumed e (resyncPoint tags (skipped s).cursor.position s'.cursor.position)⟩
        (recover tags (skipped s).cursor.position s')

/-- The passes of the loop up to its end. -/
inductive Passes (r : Rules) (tags : Array Nat) : State → List Pass → State → Prop
  | ended {s} : (skipped s).cursor.isAtEnd = true →
      Passes r tags s [⟨s.cursor.position, (skipped s).cursor.position, .ended⟩] (skipped s)
  | next {s s' t p ps} : Passed r tags s p s' → Passes r tags s' ps t → Passes r tags s (p :: ps) t

/-- What a lenient parse does is told by its passes. -/
theorem Passes.parseDecls_eq {r : Rules} {tags : Array Nat} {s t : State} {ps : List Pass}
    (h : Passes r tags s ps t) (hashBang : Option Name) {n : Nat} (hn : ps.length ≤ n)
    (decls : List Decl) (errors : List SyntaxError) :
    parseDecls .lenient r tags hashBang n decls errors s =
      .finish hashBang ((readIn ps).reverse ++ decls) ((errorsIn ps).reverse ++ errors) t false := by
  induction h generalizing n decls errors with
  | ended hend =>
    obtain _ | n := n
    · cases hn
    rw [parseDecls_end hend]
    rfl
  | next hp _ ih =>
    obtain _ | n := n
    · cases hn
    have ih := fun decls errors => ih (Nat.le_of_succ_le_succ hn) decls errors
    cases hp with
    | read hend hd =>
      rw [parseDecls_ok hend hd, ih]
      simp [readIn, errorsIn, PassEnd.decl?, PassEnd.error?]
    | resumed hend hd =>
      rw [parseDecls_lenient_error hend hd, ih]
      simp [readIn, errorsIn, PassEnd.decl?, PassEnd.error?]

/-! ## Progress -/

/-- The tokens end in `eof`. -/
def TokenList.EndsInEof (tokens : TokenList) : Prop :=
  ∃ last, tokens.toList.getLast? = some last ∧ last.kind = .eof

/-- The line breaks from the cursor on. -/
def breaksLeft (s : State) : Nat := s.cursor.rest.countP (·.tag == .newline)

/-- The state is between two declarations: a line break or the end comes next. -/
def IsBetween (s : State) : Prop :=
  headTag s.cursor.rest = .newline ∨ headTag s.cursor.rest = .eof

/-- What a pass leads to. -/
structure Progressed (list : TokenList) (s : State) (p : Pass) (s' : State) : Prop where
  tokens : s'.cursor.tokens = list
  inside : s'.cursor.position < list.size
  start : p.start = s.cursor.position ∧ p.start ≤ p.declStart
  onward : p.declStart < s'.cursor.position
  handed : ∀ e i, p.outcome = .resumed e i → i < list.size
  isBetween : IsBetween s'

theorem isBreak_tagIndices (tokens : TokenList) (i : Nat) :
    Resync.isBreak tokens.tagIndices i = (tokens.tagAt i == .newline) := by
  unfold Resync.isBreak TokenList.tagIndices TokenList.tagAt
  rw [Array.getElem?_map]
  cases tokens.tokens[i]? with
  | none => rfl
  | some t =>
    show (some t.tag.index == some Tag.newline.index) = (t.tag == .newline)
    by_cases h : t.tag = .newline
    · rw [h]
      rfl
    · rw [beq_false_of_ne h, beq_false_of_ne fun e => h (Tag.index_injective (Option.some.inj e))]

theorem TokenList.EndsInEof.tagAt {tokens : TokenList} (h : tokens.EndsInEof) :
    tokens.tagAt (tokens.size - 1) = .eof := by
  obtain ⟨last, hlast, hkind⟩ := h
  rw [List.getLast?_eq_getElem?] at hlast
  rw [TokenList.tagAt, ← Array.getElem?_toList, show tokens.size - 1 = tokens.toList.length - 1 by
    simp [TokenList.size, TokenList.toList]]
  rw [show tokens.tokens.toList = tokens.toList from rfl, hlast]
  simp [Token.tag, hkind, TokenKind.tag]

section Progress

variable {tokens : TokenList} {m : Nat} {s : State}

/-- Where a declaration starts more tokens follow. -/
theorem declStart_lt (hT : tokens.EndsInEof) (ht : s.cursor.tokens = tokens)
    (hend : s.cursor.isAtEnd = false) : s.cursor.position + 1 < tokens.size := by
  have hlt := Cursor.position_lt_of_not_isAtEnd hend
  rw [ht] at hlt
  refine Nat.lt_of_le_of_ne hlt fun e => ?_
  have hlast := hT.tagAt
  rw [← e, Nat.add_sub_cancel] at hlast
  simp only [Cursor.isAtEnd, Cursor.isAt, Cursor.currentTag, Cursor.tagAt, ht, hlast] at hend
  cases hend

/-- A declaration ends before the last token. -/
theorem Grammar.DeclRead.position {s' : State} {d : Decl} {u : List Token} {o : Outline TokenKind}
    (hT : tokens.EndsInEof) (ht : s.cursor.tokens = tokens) (hs : s.cursor.position + 1 < tokens.size)
    (h : DeclRead s s' d u o) (onward : s.cursor.Onward s'.cursor) :
    s.cursor.position < s'.cursor.position ∧ s'.cursor.position < tokens.size := by
  have hlen := congrArg List.length h.rest
  have hbound := onward.bound (by rw [ht]; omega)
  have hne : 0 < u.length := List.length_pos_iff.2 (h.derives.ne_nil rfl)
  simp only [Cursor.rest, List.length_append, List.length_drop, onward.tokens, ht] at hlen hbound
  rw [show tokens.toList.length = tokens.size by simp [TokenList.toList, TokenList.size]] at hlen
  refine ⟨by omega, Nat.lt_of_le_of_ne hbound fun e => ?_⟩
  -- otherwise the end of the tokens would belong to the declaration
  have hu : s.cursor.rest = u := by
    rw [h.rest, Cursor.rest, onward.tokens, ht, e, List.drop_eq_nil_of_le, List.append_nil]
    simp [TokenList.toList, TokenList.size]
  obtain ⟨last, hlast, hkind⟩ := hT
  have hmem : last ∈ u := by
    rw [← hu, Cursor.rest, ht]
    refine List.mem_of_getLast? ?_
    rw [List.getLast?_drop, if_neg, hlast]
    simp only [TokenList.toList, TokenList.size, Array.length_toList] at hs ⊢
    omega
  exact h.derives.nested.ne_eof last hmem (by rw [Token.tag, hkind]; rfl)

/-- The rest of the tokens is no longer than all of them. -/
theorem length_rest_le (hm : tokens.size ≤ m) (ht : s.cursor.tokens = tokens) :
    s.cursor.rest.length ≤ m := by
  refine Nat.le_trans ?_ hm
  simp [Cursor.rest, ht, TokenList.toList, TokenList.size]

/-- Where there is something left the loop makes a pass. -/
theorem exists_passed (hm : tokens.size ≤ m) (ht : s.cursor.tokens = tokens)
    (hend : (skipped s).cursor.isAtEnd = false) :
    ∃ p s', Passed (rules m) tokens.tagIndices s p s' := by
  have ht' : (skipped s).cursor.tokens = tokens := ht
  obtain ⟨d, s', u, o, hd, read⟩ | ⟨e, s', he⟩ := declLine_cases (length_rest_le hm ht')
  · exact ⟨_, s', .read hend hd⟩
  · exact ⟨_, _, .resumed hend he⟩

theorem Passed.not_end {r : Rules} {tags : Array Nat} {p : Pass} {s' : State}
    (h : Passed r tags s p s') : (skipped s).cursor.isAtEnd = false := by
  cases h with
  | read hend => exact hend
  | resumed hend => exact hend

section Inversion

variable {r : Rules} {tags : Array Nat} {s s' t f : State} {p : Pass} {ps : List Pass} {d : Decl}
  {e : SyntaxError}

theorem Passed.eq_read (h : Passed r tags s p s') (hd : declLine r (skipped s) = .ok d t) :
    p = ⟨s.cursor.position, (skipped s).cursor.position, .read d⟩ ∧ s' = t := by
  cases h with
  | read _ hd' =>
    rw [hd] at hd'
    cases hd'
    exact ⟨rfl, rfl⟩
  | resumed _ he =>
    rw [hd] at he
    cases he

theorem Passed.eq_resumed (h : Passed r tags s p s')
    (he : declLine r (skipped s) = .error (.error e) t) :
    p = ⟨s.cursor.position, (skipped s).cursor.position,
        .resumed e (resyncPoint tags (skipped s).cursor.position t.cursor.position)⟩ ∧
      s' = recover tags (skipped s).cursor.position t := by
  cases h with
  | read _ hd =>
    rw [he] at hd
    cases hd
  | resumed _ he' =>
    rw [he] at he'
    cases he'
    exact ⟨rfl, rfl⟩

/-- Where nothing is left the passes are over. -/
theorem Passes.eq_ended (h : Passes r tags s ps f) (hend : (skipped s).cursor.isAtEnd = true) :
    ps = [⟨s.cursor.position, (skipped s).cursor.position, .ended⟩] ∧ f = skipped s := by
  cases h with
  | ended => exact ⟨rfl, rfl⟩
  | next hp =>
    rw [hp.not_end] at hend
    cases hend

/-- Where a declaration is read the first pass reads it. -/
theorem Passes.eq_read (h : Passes r tags s ps f) (hend : (skipped s).cursor.isAtEnd = false)
    (hd : declLine r (skipped s) = .ok d t) :
    ∃ ps', ps = ⟨s.cursor.position, (skipped s).cursor.position, .read d⟩ :: ps' ∧
      Passes r tags t ps' f := by
  cases h with
  | ended hend' =>
    rw [hend] at hend'
    cases hend'
  | next hp hps =>
    obtain ⟨rfl, rfl⟩ := hp.eq_read hd
    exact ⟨_, rfl, hps⟩

/-- Where there is an error the first pass takes it down. -/
theorem Passes.eq_resumed (h : Passes r tags s ps f) (hend : (skipped s).cursor.isAtEnd = false)
    (he : declLine r (skipped s) = .error (.error e) t) :
    ∃ ps', ps = ⟨s.cursor.position, (skipped s).cursor.position,
        .resumed e (resyncPoint tags (skipped s).cursor.position t.cursor.position)⟩ :: ps' ∧
      Passes r tags (recover tags (skipped s).cursor.position t) ps' f := by
  cases h with
  | ended hend' =>
    rw [hend] at hend'
    cases hend'
  | next hp hps =>
    obtain ⟨rfl, rfl⟩ := hp.eq_resumed he
    exact ⟨_, rfl, hps⟩

end Inversion

/-- Where a state goes on after an error. -/
theorem position_recover {tags : Array Nat} {d k : Nat} (hk : resyncPoint tags d s.cursor.position = k)
    (hlt : k < s.cursor.tokens.size) : (recover tags d s).cursor.position = k := by
  show min (resyncPoint tags d s.cursor.position) (s.cursor.tokens.size - 1) = k
  rw [hk]
  omega

/-- Every pass makes progress. -/
theorem Passed.progressed (hT : tokens.EndsInEof) (hm : tokens.size ≤ m)
    (ht : s.cursor.tokens = tokens) {p : Pass} {s' : State}
    (h : Passed (rules m) tokens.tagIndices s p s') : Progressed tokens s p s' := by
  have ht' : (skipped s).cursor.tokens = tokens := ht
  have hle : s.cursor.position ≤ (skipped s).cursor.position := Cursor.le_skipFrom _ _ _
  have onward := Forward.onward (p := declLine (rules m)) (skipped s)
  cases h with
  | @read d s' hend hd =>
    rw [hd] at onward
    have honward : (skipped s).cursor.Onward s'.cursor := onward.cursor
    obtain ⟨u, o, read⟩ := DeclRead.of_ok (length_rest_le hm ht') hd
    have hpos := read.position hT ht' (declStart_lt hT ht' hend) honward
    exact ⟨honward.tokens.trans ht', hpos.2, ⟨rfl, hle⟩, hpos.1, (fun _ _ h => by cases h), read.ends⟩
  | @resumed e s' hend he =>
    rw [he] at onward
    have honward : (skipped s).cursor.Onward s'.cursor := onward.cursor
    have hs' : s'.cursor.tokens = tokens := honward.tokens.trans ht'
    have hbreak : Resync.isBreak tokens.tagIndices (skipped s).cursor.position = false := by
      obtain ⟨b, -, -, hhead⟩ := skipped_rest s
      rw [isBreak_tagIndices, ← ht', tagAt_eq_headTag]
      exact beq_false_of_ne hhead
    have hsize : tokens.tagIndices.size = tokens.size := by simp [TokenList.tagIndices, TokenList.size]
    have hwhere := resyncPoint_spec (by rw [hsize]; exact declStart_lt hT ht' hend)
      honward.position hbreak
    generalize htarget : resyncPoint tokens.tagIndices (skipped s).cursor.position s'.cursor.position =
      target at hwhere
    obtain ⟨hlt, hwhere⟩ := hwhere
    have hin : target < tokens.size := by
      rcases hwhere with hb | hb
      · rw [← hsize]
        exact Resync.lt_of_isBreak hb
      · omega
    have hpos := position_recover htarget (hs' ▸ hin)
    refine ⟨hs', hpos ▸ hin, ⟨rfl, hle⟩, hpos ▸ hlt, ?_, ?_⟩
    · rintro _ _ ⟨⟩
      exact hin
    · have htag : headTag (recover tokens.tagIndices (skipped s).cursor.position s').cursor.rest =
          tokens.tagAt target := by
        rw [← hpos, ← Cursor.currentTag_eq]
        exact congrArg (TokenList.tagAt · _) hs'
      rw [IsBetween, htag]
      rcases hwhere with hb | hb
      · rw [isBreak_tagIndices] at hb
        exact .inl (eq_of_beq hb)
      · rw [← hT.tagAt, ← hsize, ← hb]
        exact .inr rfl

/-! ## Whole runs -/

/-- The loop comes to its end. -/
theorem exists_passes (hT : tokens.EndsInEof) (hm : tokens.size ≤ m) (ht : s.cursor.tokens = tokens)
    (hin : s.cursor.position < tokens.size) :
    ∃ ps t, Passes (rules m) tokens.tagIndices s ps t ∧ s.cursor.position + ps.length ≤ tokens.size := by
  generalize hleft : tokens.size - s.cursor.position = left
  induction left using Nat.strongRecOn generalizing s with
  | ind left ih =>
    cases hend : (skipped s).cursor.isAtEnd with
    | true => exact ⟨_, _, .ended hend, hin⟩
    | false =>
      obtain ⟨p, s', hp⟩ := exists_passed hm ht hend
      have hg := hp.progressed hT hm ht
      have hlt : s.cursor.position < s'.cursor.position :=
        Nat.lt_of_le_of_lt (hg.start.1 ▸ hg.start.2) hg.onward
      obtain ⟨ps, t, hps, hlen⟩ := ih (tokens.size - s'.cursor.position) (by omega) hg.tokens hg.inside rfl
      refine ⟨p :: ps, t, .next hp hps, ?_⟩
      rw [List.length_cons]
      omega

/-- What was stored before a pass stays. -/
theorem Passed.kept {tags : Array Nat} (hm : tokens.size ≤ m) (ht : s.cursor.tokens = tokens) {p : Pass}
    {s' : State} (h : Passed (rules m) tags s p s') :
    s.arena.Kept s'.arena ∧ s'.cursor.tokens = tokens := by
  have ht' : (skipped s).cursor.tokens = tokens := ht
  have hkept := declLine_kept (length_rest_le hm ht')
  have onward := Forward.onward (p := declLine (rules m)) (skipped s)
  cases h with
  | read _ hd =>
    rw [hd] at hkept onward
    exact ⟨hkept, onward.cursor.tokens.trans ht'⟩
  | resumed _ he =>
    rw [he] at hkept onward
    exact ⟨hkept, onward.cursor.tokens.trans ht'⟩

/-- What was stored before the passes stays. -/
theorem Passes.kept {tags : Array Nat} (hm : tokens.size ≤ m) (ht : s.cursor.tokens = tokens)
    {ps : List Pass} {t : State} (h : Passes (rules m) tags s ps t) : s.arena.Kept t.arena := by
  induction h with
  | ended => exact .refl _
  | next hp _ ih =>
    obtain ⟨hkept, htokens⟩ := hp.kept hm ht
    exact hkept.trans (ih htokens)

/-- Every pass begins behind the declaration start of the one before. -/
theorem Passes.ordered (hT : tokens.EndsInEof) (hm : tokens.size ≤ m) {ps : List Pass} {t : State}
    (h : Passes (rules m) tokens.tagIndices s ps t) (ht : s.cursor.tokens = tokens) :
    (∀ p ∈ ps, s.cursor.position ≤ p.start ∧ p.start ≤ p.declStart) ∧
      ps.Pairwise fun p q => p.declStart < q.start := by
  induction h with
  | @ended s hend =>
    have hle : s.cursor.position ≤ (skipped s).cursor.position := Cursor.le_skipFrom _ _ _
    exact ⟨fun p hp => by cases List.mem_singleton.1 hp; exact ⟨Nat.le_refl _, hle⟩,
      List.pairwise_singleton _ _⟩
  | @next s s' t p ps hp _ ih =>
    have hg := hp.progressed hT hm ht
    obtain ⟨hbegin, hpair⟩ := ih hg.tokens
    refine ⟨fun q hq => ?_, List.pairwise_cons.2 ⟨fun q hq => ?_, hpair⟩⟩
    · rcases List.mem_cons.1 hq with rfl | hq
      · exact ⟨Nat.le_of_eq hg.start.1.symm, hg.start.2⟩
      · have hstart := hg.start
        have honward := hg.onward
        have := hbegin q hq
        omega
    · have honward := hg.onward
      have := hbegin q hq
      omega

/-- Every index that is handed to the cursor is that of a token. -/
theorem Passes.handed (hT : tokens.EndsInEof) (hm : tokens.size ≤ m) {ps : List Pass} {t : State}
    (h : Passes (rules m) tokens.tagIndices s ps t) (ht : s.cursor.tokens = tokens) :
    ∀ p ∈ ps, ∀ e i, p.outcome = .resumed e i → i < tokens.size := by
  induction h with
  | ended =>
    intro p hp e i ho
    cases List.mem_singleton.1 hp
    cases ho
  | @next s s' t p ps hp _ ih =>
    have hg := hp.progressed hT hm ht
    intro q hq
    rcases List.mem_cons.1 hq with rfl | hq
    · exact hg.handed
    · exact ih hg.tokens q hq

/-- A pass adds one declaration or one error. -/
theorem Passed.adds {r : Rules} {tags : Array Nat} {p : Pass} {s' : State} (h : Passed r tags s p s')
    (ps : List Pass) : (readIn (p :: ps)).length + (errorsIn (p :: ps)).length =
      (readIn ps).length + (errorsIn ps).length + 1 := by
  cases h with
  | read =>
    simp [readIn, errorsIn, PassEnd.decl?, PassEnd.error?]
    omega
  | resumed =>
    simp [readIn, errorsIn, PassEnd.decl?, PassEnd.error?]
    omega

theorem breaksLeft_le {s' : State} (ht : s'.cursor.tokens = s.cursor.tokens)
    (hle : s.cursor.position ≤ s'.cursor.position) : breaksLeft s' ≤ breaksLeft s := by
  unfold breaksLeft
  rw [Cursor.rest_of_position ht (Nat.add_sub_of_le hle).symm]
  exact (List.drop_sublist _ _).countP_le

/-- Between two declarations a pass takes a line break. -/
theorem breaksLeft_lt {s' : State} (hb : IsBetween s) (hend : (skipped s).cursor.isAtEnd = false)
    (ht : s'.cursor.tokens = s.cursor.tokens) (hlt : s.cursor.position < s'.cursor.position) :
    breaksLeft s' < breaksLeft s := by
  obtain ⟨b, hbreaks, hrest, -⟩ := skipped_rest s
  cases b with
  | nil =>
    -- nothing is skipped, so the end does not come next, and no line break either
    rw [isAtEnd_eq] at hend
    obtain ⟨-, -, hskip, hhead⟩ := skipped_rest s
    rw [List.nil_append] at hrest
    rcases hb with hb | hb
    · exact absurd (hrest ▸ hb) hhead
    · rw [← hrest, hb] at hend
      cases hend
  | cons tok b =>
    have htok : tok.tag = .newline := hbreaks tok List.mem_cons_self
    unfold breaksLeft
    rw [Cursor.rest_of_position ht (n := s'.cursor.position - s.cursor.position) (by omega), hrest,
      List.cons_append, show s'.cursor.position - s.cursor.position =
        (s'.cursor.position - s.cursor.position - 1) + 1 by omega, List.drop_succ_cons,
      List.countP_cons_of_pos (by simp [htok])]
    exact Nat.lt_succ_of_le (List.drop_sublist _ _).countP_le

/-- All declarations and errors but the first come after line breaks of their own. -/
theorem Passes.count_between (hT : tokens.EndsInEof) (hm : tokens.size ≤ m) {ps : List Pass} {t : State}
    (h : Passes (rules m) tokens.tagIndices s ps t) (ht : s.cursor.tokens = tokens)
    (hb : IsBetween s) : (readIn ps).length + (errorsIn ps).length ≤ breaksLeft s := by
  induction h with
  | ended => exact Nat.zero_le _
  | @next s s' t p ps hp _ ih =>
    have hg := hp.progressed hT hm ht
    have hlt : s.cursor.position < s'.cursor.position :=
      Nat.lt_of_le_of_lt (hg.start.1 ▸ hg.start.2) hg.onward
    have hless := breaksLeft_lt hb hp.not_end (hg.tokens.trans ht.symm) hlt
    have := ih hg.tokens hg.isBetween
    rw [hp.adds]
    omega

theorem Passes.count (hT : tokens.EndsInEof) (hm : tokens.size ≤ m) {ps : List Pass} {t : State}
    (h : Passes (rules m) tokens.tagIndices s ps t) (ht : s.cursor.tokens = tokens) :
    (readIn ps).length + (errorsIn ps).length ≤ breaksLeft s + 1 := by
  cases h with
  | ended => exact Nat.zero_le _
  | @next s s' t p ps hp hps =>
    have hg := hp.progressed hT hm ht
    have hlt : s.cursor.position < s'.cursor.position :=
      Nat.lt_of_le_of_lt (hg.start.1 ▸ hg.start.2) hg.onward
    have hle := breaksLeft_le (hg.tokens.trans ht.symm) (Nat.le_of_lt hlt)
    have := hps.count_between hT hm hg.tokens hg.isBetween
    rw [hp.adds]
    omega

end Progress

/-- The passes of a lenient parse, and that there are not too many of them for its bound. -/
theorem exists_passes_start {tokens : TokenList} (names : Interner) (hT : tokens.EndsInEof) :
    ∃ ps t, Passes (rules (tokens.size + 1)) tokens.tagIndices
        (takeHashBang (.start tokens names)).2 ps t ∧ ps.length ≤ tokens.size + 1 := by
  obtain ⟨b, hrest, hb, ht, -⟩ := takeHashBang_spec (.start tokens names)
  generalize (takeHashBang (.start tokens names)).2 = s at ht hrest
  have hin : s.cursor.position < tokens.size := by
    obtain ⟨last, hlast, hkind⟩ := hT
    have hlist : tokens.toList = b ++ s.cursor.rest := hrest
    -- the last token does not belong to the line
    have hne : s.cursor.rest ≠ [] := by
      intro hnil
      rw [hnil, List.append_nil] at hlist
      have := hb last (hlist ▸ List.mem_of_getLast? hlast)
      rw [Token.tag, hkind] at this
      cases this
    rw [Cursor.rest, show s.cursor.tokens = tokens from ht, ne_eq, List.drop_eq_nil_iff] at hne
    simpa [TokenList.toList, TokenList.size] using hne
  obtain ⟨ps, t, hps, hlen⟩ := exists_passes hT (Nat.le_succ _) ht hin
  exact ⟨ps, t, hps, by omega⟩

/-- The loop behind a parse. -/
theorem parseModule_eq (tokens : TokenList) (names : Interner) (recovery : Recovery) :
    parseModule recovery (.start tokens names) =
      parseDecls recovery (rules (tokens.size + 1)) tokens.tagIndices
        (takeHashBang (.start tokens names)).1 (tokens.size + 1) [] []
        (takeHashBang (.start tokens names)).2 := by
  obtain ⟨-, -, -, ht, -⟩ := takeHashBang_spec (.start tokens names)
  unfold parseModule
  simp only [State.bound, ht]
  rfl

/-- What a lenient parse gives is told by its passes. -/
theorem Passes.parse_eq {tokens : TokenList} {names : Interner} {ps : List Pass} {t : State}
    (h : Passes (rules (tokens.size + 1)) tokens.tagIndices (takeHashBang (.start tokens names)).2 ps t)
    (hlen : ps.length ≤ tokens.size + 1) : parse tokens names .lenient =
      (.ok ⟨⟨(takeHashBang (.start tokens names)).1, readIn ps⟩, t.arena, errorsIn ps⟩, t.names) := by
  unfold parse
  rw [parseModule_eq, h.parseDecls_eq _ hlen]
  simp [ModuleRun.finish]

/-- **A lenient parse of any tokens that end in `eof` comes to its end.**  It is a run of passes that
gives the module and the errors; each pass begins, and has its declaration, further on than the one
before; an index at which parsing goes on after an error is that of a token; and there is at most one
declaration or error more than there are line breaks. -/
theorem parse_lenient_passes {tokens : TokenList} (names : Interner) (hT : tokens.EndsInEof) :
    ∃ ps t, Passes (rules (tokens.size + 1)) tokens.tagIndices
        (takeHashBang (.start tokens names)).2 ps t ∧
      parse tokens names .lenient =
        (.ok ⟨⟨(takeHashBang (.start tokens names)).1, readIn ps⟩, t.arena, errorsIn ps⟩, t.names) ∧
      (ps.Pairwise fun p q => p.start < q.start ∧ p.declStart < q.declStart) ∧
      (∀ p ∈ ps, ∀ e i, p.outcome = .resumed e i → i < tokens.size) ∧
      (readIn ps).length + (errorsIn ps).length ≤ tokens.toList.countP (·.tag == .newline) + 1 := by
  obtain ⟨ps, t, hps, hlen⟩ := exists_passes_start names hT
  obtain ⟨-, -, -, ht, -⟩ := takeHashBang_spec (.start tokens names)
  have hm : tokens.size ≤ tokens.size + 1 := Nat.le_succ _
  refine ⟨ps, t, hps, hps.parse_eq hlen, ?_, hps.handed hT hm ht, ?_⟩
  · obtain ⟨hbegin, hpair⟩ := hps.ordered hT hm ht
    refine hpair.imp_of_mem fun hp hq hlt => ?_
    have h₁ := hbegin _ hp
    have h₂ := hbegin _ hq
    omega
  · refine Nat.le_trans (hps.count hT hm ht) (Nat.succ_le_succ ?_)
    show breaksLeft (takeHashBang (.start tokens names)).2 ≤ breaksLeft (.start tokens names)
    exact breaksLeft_le ht (Nat.zero_le _)

/-- The loop gets past a bracket that nothing opens. -/
theorem stray_bracket_passes :
    let tokens := TokenList.ofList [⟨.rparen, .dummy, .first⟩]
    tokens.EndsInEof ∧
      ∃ ps t, Passes (rules (tokens.size + 1)) tokens.tagIndices
          (takeHashBang (.start tokens .new)).2 ps t ∧
        parse tokens .new .lenient =
          (.ok ⟨⟨(takeHashBang (.start tokens .new)).1, readIn ps⟩, t.arena, errorsIn ps⟩, t.names) ∧
        (ps.Pairwise fun p q => p.start < q.start ∧ p.declStart < q.declStart) ∧
        (∀ p ∈ ps, ∀ e i, p.outcome = .resumed e i → i < tokens.size) ∧
        (readIn ps).length + (errorsIn ps).length ≤ tokens.toList.countP (·.tag == .newline) + 1 := by
  intro tokens
  have hend : tokens.EndsInEof := ⟨_, rfl, rfl⟩
  exact ⟨hend, parse_lenient_passes .new hend⟩

end SolSyntax
