import SolSyntax.LineTable
import SolSyntax.Proofs.Tiling

/-!
# Lines and columns

The lexer counts lines and columns on its way through a source; a line table looks an offset up among
the starts of the lines.  Between two characters both give what counting gives: the line feeds before,
and the characters since the last one (`Position.behind`).

Principal results: `LineTable.position_byteLength` — looking up; `Lexing.Progress.Counts.run` — counting
on the way, to the end or to where lexing fails; `lex_positions` — both agree at every token and at the
error of a source.
-/

namespace SolSyntax

/-! ## Counting -/

/-- The characters after the last line feed. -/
def lastLine (cs : List Char) : List Char := (cs.reverse.takeWhile (· != '\n')).reverse

/-- The position behind a text: one more than the line feeds in it, and one more than the characters
after the last of these. -/
def Position.behind (before : List Char) : Position :=
  ⟨before.count '\n' + 1, (lastLine before).length + 1⟩

theorem lastLine_snoc (cs : List Char) (c : Char) :
    lastLine (cs ++ [c]) = if c = '\n' then [] else lastLine cs ++ [c] := by
  by_cases h : c = '\n' <;> simp [lastLine, h]

theorem Position.behind_snoc (cs : List Char) (c : Char) :
    behind (cs ++ [c]) = (behind cs).after c := by
  by_cases h : c = '\n' <;> simp [behind, after, lastLine_snoc, h]

theorem lastLine_append {cs ds : List Char} (h : '\n' ∉ ds) : lastLine (cs ++ ds) = lastLine cs ++ ds := by
  have hall : ∀ c ∈ ds.reverse, (c != '\n') = true := by
    intro c hc
    exact bne_iff_ne.2 fun e => h (e ▸ List.mem_reverse.1 hc)
  rw [lastLine, List.reverse_append, List.takeWhile_append_of_pos hall, List.reverse_append,
    List.reverse_reverse, lastLine]

/-- Every further character leads to another position. -/
theorem Position.behind_append_ne {cs ds : List Char} (h : ds ≠ []) : behind (cs ++ ds) ≠ behind cs := by
  intro e
  obtain ⟨hline, hcolumn⟩ := Position.mk.inj e
  rw [List.count_append] at hline
  have hnone : '\n' ∉ ds := List.count_eq_zero.1 (by omega)
  rw [lastLine_append hnone, List.length_append] at hcolumn
  exact h (List.length_eq_zero_iff.1 (by omega))

/-- A text is what comes up to its last line feed, and its last line. -/
theorem exists_append_lastLine (cs : List Char) :
    ∃ head, cs = head ++ lastLine cs ∧ '\n' ∉ lastLine cs ∧ (head = [] ∨ ∃ more, head = more ++ ['\n']) := by
  have hsplit := List.takeWhile_append_dropWhile (p := (· != '\n')) (l := cs.reverse)
  refine ⟨(cs.reverse.dropWhile (· != '\n')).reverse, ?_, ?_, ?_⟩
  · rw [lastLine, ← List.reverse_append, hsplit, List.reverse_reverse]
  · rw [lastLine, List.mem_reverse]
    intro hmem
    have hall := List.all_eq_true.1 (List.all_takeWhile (p := (· != '\n')) (l := cs.reverse)) _ hmem
    simp at hall
  · cases hrest : cs.reverse.dropWhile (· != '\n') with
    | nil => exact .inl rfl
    | cons c more =>
      have hc : ¬(c != '\n') = true := by
        have := List.head_dropWhile_not (· != '\n') (w := by rw [hrest]; simp) (l := cs.reverse)
        simpa [hrest] using this
      have hc : c = '\n' := by simpa using hc
      exact .inr ⟨more.reverse, by rw [hc, List.reverse_cons]⟩

/-! ## Looking up -/

/-- The sum of the sizes and the starts that were found, those in front kept. -/
theorem foldl_lineStarts (offset : Nat) (acc : List Nat) (cs : List Char) :
    cs.foldl (fun (state : Nat × List Nat) c =>
      (state.1 + c.utf8Size, if c = '\n' then (state.1 + c.utf8Size) :: state.2 else state.2))
      (offset, acc) = (offset + byteLength cs, (lineStartsFrom offset cs).reverse ++ acc) := by
  induction cs generalizing offset acc with
  | nil => rfl
  | cons c cs ih =>
    unfold lineStartsFrom
    simp only [List.foldl_cons, List.reverse_reverse, byteLength_cons, ih, ← Nat.add_assoc]
    split <;> simp

theorem lineStartsFrom_append (offset : Nat) (as bs : List Char) :
    lineStartsFrom offset (as ++ bs) =
      lineStartsFrom offset as ++ lineStartsFrom (offset + byteLength as) bs := by
  have happend := congrArg Prod.snd (foldl_lineStarts offset [] (as ++ bs))
  rw [List.foldl_append, foldl_lineStarts, foldl_lineStarts] at happend
  simpa [← List.reverse_append] using happend.symm

theorem lineStartsFrom_singleton (offset : Nat) (c : Char) :
    lineStartsFrom offset [c] = if c = '\n' then [offset + c.utf8Size] else [] := by
  unfold lineStartsFrom
  split <;> simp [*]

/-- Lines start behind line feeds. -/
theorem length_lineStartsFrom (offset : Nat) (cs : List Char) :
    (lineStartsFrom offset cs).length = cs.count '\n' := by
  induction cs generalizing offset with
  | nil => rfl
  | cons c cs ih =>
    rw [← List.singleton_append, lineStartsFrom_append, List.length_append, ih, List.count_append,
      lineStartsFrom_singleton]
    split <;> simp [*]

theorem mem_lineStartsFrom {offset n : Nat} {cs : List Char} (h : n ∈ lineStartsFrom offset cs) :
    offset < n ∧ n ≤ offset + byteLength cs := by
  induction cs generalizing offset with
  | nil => cases h
  | cons c cs ih =>
    rw [← List.singleton_append, lineStartsFrom_append, List.mem_append, lineStartsFrom_singleton] at h
    have := Char.utf8Size_pos c
    rw [byteLength_cons]
    rcases h with h | h
    · split at h
      · cases List.mem_singleton.1 h
        omega
      · cases h
    · have := ih h
      rw [byteLength_cons, byteLength_nil] at this
      omega

/-- The last line of a text starts as many bytes before its end as the line is long. -/
theorem getLast_lineStarts (cs : List Char) :
    (0 :: lineStartsFrom 0 cs).getLast (List.cons_ne_nil _ _) + byteLength (lastLine cs) = byteLength cs := by
  obtain ⟨head, hcs, hline, hhead⟩ := exists_append_lastLine cs
  have hnone : lineStartsFrom (0 + byteLength head) (lastLine cs) = [] := by
    rw [← List.length_eq_zero_iff, length_lineStartsFrom, List.count_eq_zero]
    exact hline
  have hstarts : lineStartsFrom 0 cs = lineStartsFrom 0 head := by
    rw [congrArg (lineStartsFrom 0) hcs, lineStartsFrom_append, hnone, List.append_nil]
  have hlength : byteLength cs = byteLength head + byteLength (lastLine cs) := by
    rw [← byteLength_append, ← hcs]
  have hlast : (0 :: lineStartsFrom 0 head).getLast (List.cons_ne_nil _ _) = byteLength head := by
    rcases hhead with rfl | ⟨more, rfl⟩
    · rfl
    · simp only [lineStartsFrom_append, lineStartsFrom_singleton, if_true, ← List.cons_append,
        List.getLast_concat, byteLength_append, byteLength_cons, byteLength_nil, Nat.zero_add, Nat.add_zero]
  simp only [hstarts, hlast, hlength]

namespace LineTable

theorem saturated_eq {offset : Nat} (h : offset < wordLimit) : saturated offset = offset :=
  Nat.min_eq_left (by omega)

theorem ordinal_eq {index : Nat} (h : index < wordLimit) : ordinal index = index + 1 := if_pos h

/-- A place between two texts can be told from every start of a line behind it by 32-bit numbers: it is
before the last of these, or no line starts past that. -/
def InReach (before after : List Char) : Prop :=
  byteLength before + 1 < wordLimit ∨ byteLength (before ++ after) < wordLimit

theorem InReach.lt_wordLimit {before after : List Char} (h : InReach before after) :
    byteLength before < wordLimit := by
  rcases h with h | h
  · omega
  · rw [byteLength_append] at h
    omega

/-- Of the starts of lines, those up to a place are those in the text before it. -/
theorem takeWhile_starts {before after : List Char} (h : InReach before after) :
    (ofChars (before ++ after)).starts.takeWhile (· ≤ byteLength before) =
      0 :: lineStartsFrom 0 before := by
  have hword := h.lt_wordLimit
  have hkept : (lineStartsFrom 0 before).map saturated = lineStartsFrom 0 before := by
    refine (List.map_congr_left fun n hn => saturated_eq ?_).trans (List.map_id _)
    have := (mem_lineStartsFrom hn).2
    omega
  have hbefore : ∀ n ∈ 0 :: lineStartsFrom 0 before, decide (n ≤ byteLength before) = true := by
    intro n hn
    rcases List.mem_cons.1 hn with rfl | hn
    · exact decide_eq_true (Nat.zero_le _)
    · have := (mem_lineStartsFrom hn).2
      exact decide_eq_true (by omega)
  have hafter : ((lineStartsFrom (0 + byteLength before) after).map saturated).takeWhile
      (· ≤ byteLength before) = [] := by
    cases hstarts : lineStartsFrom (0 + byteLength before) after with
    | nil => rfl
    | cons n ns =>
      have hn := mem_lineStartsFrom (hstarts ▸ List.mem_cons_self : n ∈ _)
      have hlater : byteLength before < saturated n := by
        rcases h with h | h
        · exact Nat.lt_min.2 ⟨by omega, by omega⟩
        · rw [byteLength_append] at h
          rw [saturated_eq (by omega)]
          omega
      rw [List.map_cons, List.takeWhile_cons_of_neg (by simpa using hlater)]
  rw [ofChars, lineStartsFrom_append, List.map_append, hkept, ← List.cons_append,
    List.takeWhile_append_of_pos hbefore, hafter, List.append_nil]

/-- The line that a place between two characters is on starts behind the last line feed before it. -/
theorem lineStart?_count (before after : List Char) : ∃ head, before = head ++ lastLine before ∧
    (ofChars (before ++ after)).lineStart? (before.count '\n' + 1) = some (saturated (byteLength head)) := by
  obtain ⟨head, hbefore, -⟩ := exists_append_lastLine before
  have hlast := getLast_lineStarts before
  have hlength : byteLength before = byteLength head + byteLength (lastLine before) := by
    rw [← byteLength_append, ← hbefore]
  have hindex : before.count '\n' < (0 :: lineStartsFrom 0 before).length := by
    rw [List.length_cons, length_lineStartsFrom]
    exact Nat.lt_succ_self _
  have hget : (0 :: lineStartsFrom 0 before)[before.count '\n']? = some (byteLength head) := by
    have hstart : (0 :: lineStartsFrom 0 before).getLast (List.cons_ne_nil _ _) = byteLength head := by omega
    rw [← hstart, List.getLast_eq_getElem, List.getElem?_eq_getElem hindex]
    simp [length_lineStartsFrom]
  have hstarts : (ofChars (before ++ after)).starts =
      (0 :: lineStartsFrom 0 before).map saturated ++
        (lineStartsFrom (0 + byteLength before) after).map saturated := by
    rw [ofChars, lineStartsFrom_append, List.map_append]
    rfl
  refine ⟨head, hbefore, ?_⟩
  rw [lineStart?, if_neg (Nat.succ_ne_zero _), Nat.add_sub_cancel, hstarts,
    List.getElem?_append_left (by rwa [List.length_map]), List.getElem?_map, hget, Option.map_some]

/-- An offset between two characters is found where counting leads. -/
theorem position_byteLength {before after : List Char} (h : InReach before after) :
    (ofChars (before ++ after)).position (byteLength before) = .behind before := by
  have hword := h.lt_wordLimit
  have hlength := length_le_byteLength before
  have hline : (ofChars (before ++ after)).lineOf (byteLength before) = before.count '\n' + 1 := by
    have := List.count_le_length (a := '\n') (l := before)
    rw [lineOf, takeWhile_starts h, List.length_cons, length_lineStartsFrom, Nat.add_sub_cancel,
      ordinal_eq (by omega)]
  obtain ⟨head, hbefore, hstart⟩ := lineStart?_count before after
  have hhead : byteLength head + byteLength (lastLine before) = byteLength before := by
    rw [← byteLength_append, ← hbefore]
  have hslice : sliceBytes (byteLength head) (min (byteLength before) (byteLength (before ++ after)))
      (before ++ after) = some (lastLine before) := by
    refine sliceBytes_eq_some.2 ⟨head, after, ?_, rfl, ?_⟩
    · rw [← List.append_assoc, ← hbefore]
    · rw [← hbefore, byteLength_append]
      omega
  have hcolumn := length_le_byteLength (lastLine before)
  simp only [position, hline, hstart, Option.getD_some]
  rw [saturated_eq (by omega), show (ofChars (before ++ after)).source = before ++ after from rfl, hslice,
    Option.getD_some, ordinal_eq (by omega)]
  rfl

end LineTable

/-- A span starts between two characters of a source, and counting arrives there at a position. -/
def CountedAt (source : List Char) (span : Span) (position : Position) : Prop :=
  ∃ before after, source = before ++ after ∧ byteLength before = span.start ∧ position = .behind before

namespace CountedAt

variable {cs : List Char} {span : Span} {position : Position}

theorem more (h : CountedAt cs span position) (text : List Char) :
    CountedAt (cs ++ text) span position := by
  obtain ⟨before, after, rfl, hstart, hposition⟩ := h
  exact ⟨before, after ++ text, by simp, hstart, hposition⟩

/-- Looking up leads to the same position. -/
theorem positionIn_eq {source : String} (h : CountedAt source.toList span position)
    (hsize : source.utf8ByteSize < wordLimit) : span.positionIn source = position := by
  obtain ⟨before, after, hsource, hstart, rfl⟩ := h
  rw [← byteLength_toList, hsource] at hsize
  rw [Span.positionIn, LineTable.ofSource, hsource, ← hstart]
  exact LineTable.position_byteLength (.inr hsize)

/-- Further on in the source the position is another. -/
theorem position_ne {other : Span} {q : Position} (h : CountedAt cs span position)
    (h' : CountedAt cs other q) (hlt : span.start < other.start) : q ≠ position := by
  obtain ⟨before, after, hsource, hstart, rfl⟩ := h
  obtain ⟨before', after', hsource', hstart', rfl⟩ := h'
  rcases List.append_eq_append_iff.1 (hsource.symm.trans hsource') with ⟨more, rfl, -⟩ | ⟨more, rfl, -⟩
  · refine Position.behind_append_ne ?_
    rintro rfl
    rw [List.append_nil] at hstart'
    omega
  · rw [byteLength_append] at hstart
    omega

end CountedAt

/-! ## The lexer on its way -/

/-- Tokens come one after the other, and no span is turned around. -/
structure TokenList.InOrder (ts : TokenList) : Prop where
  start_le_stop : ∀ t ∈ ts.toList, t.span.start ≤ t.span.stop
  apart : ts.toList.Pairwise fun t u => t.span.stop ≤ u.span.start

/-- One more token behind those in order. -/
theorem TokenList.InOrder.push {ts : TokenList} {t : Token} (h : ts.InOrder)
    (hspan : t.span.start ≤ t.span.stop) (hafter : ∀ u ∈ ts.toList, u.span.stop ≤ t.span.start) :
    (ts.push t).InOrder where
  start_le_stop := by
    intro u hu
    rw [TokenList.toList_push, List.mem_append, List.mem_singleton] at hu
    rcases hu with hu | rfl
    · exact h.start_le_stop u hu
    · exact hspan
  apart := by
    rw [TokenList.toList_push]
    refine List.pairwise_append.2 ⟨h.apart, List.pairwise_singleton _ _, fun u hu v hv => ?_⟩
    rw [List.mem_singleton.1 hv]
    exact hafter u hu

namespace Lexing

theorem Place.position_advance (cs : List Char) : (Place.first.advance cs).position = .behind cs := by
  have key : ∀ done : List Char, ∀ p : Place, p.position = .behind done →
      (p.advance cs).position = .behind (done ++ cs) := by
    induction cs with
    | nil =>
      intro done p hp
      rw [List.append_nil]
      exact hp
    | cons c cs ih =>
      intro done p hp
      have := ih (done ++ [c]) (p.after c) (by rw [Position.behind_snoc, ← hp]; rfl)
      rwa [List.append_assoc] at this
  exact key [] .first rfl

/-- Why lexing fails at a text: it is a lexeme that becomes nothing, or a character begins nothing. -/
def Fails (text : List Char) (kind : LexErrorKind) : Prop :=
  (∃ first cs shape rest names names', scan first cs = .lexeme shape text rest ∧
    item names shape text = (.error kind, names')) ∨ ∃ c, kind = .unexpectedChar c

/-- Where and why lexing fails in a source. -/
def FailsIn (source : List Char) (e : LexError) : Prop :=
  ∃ before text after, source = before ++ (text ++ after) ∧ text ≠ [] ∧
    e.span = ⟨byteLength before, byteLength (before ++ text)⟩ ∧ e.position = .behind before ∧
    Fails text e.kind

theorem FailsIn.counted {source : List Char} {e : LexError} (h : FailsIn source e) :
    CountedAt source e.span e.position := by
  obtain ⟨before, text, after, hsource, -, hspan, hposition, -⟩ := h
  exact ⟨before, text ++ after, hsource, by rw [hspan], hposition⟩

/-- What has been lexed of a text is in order, and all of it stands where counting arrives. -/
structure Progress.Counts (s : Progress) (done : List Char) : Prop where
  place : s.place = Place.first.advance done
  inOrder : (TokenList.mk s.tokens).InOrder
  stop_le : ∀ t ∈ s.tokens.toList, t.span.stop ≤ byteLength done
  counted : ∀ t ∈ s.tokens.toList, CountedAt done t.span t.position

namespace Progress.Counts

variable {s : Progress} {done text : List Char}

theorem empty (names : Interner) : (Progress.empty names).Counts [] where
  place := rfl
  inOrder := ⟨fun _ h => (nomatch h), .nil⟩
  stop_le := fun _ h => by cases h
  counted := fun _ h => by cases h

/-- What comes next is counted as well. -/
theorem next (h : s.Counts done) (text : List Char) :
    CountedAt done (s.place.spanOf text) s.place.position := by
  refine ⟨done, [], (List.append_nil _).symm, ?_, ?_⟩
  · rw [h.place, Place.spanOf, Place.offset_first_advance]
  · rw [h.place, Place.position_advance]

theorem blanks (h : s.Counts done) (text : List Char) :
    Progress.Counts { s with place := s.place.advance text } (done ++ text) where
  place := by rw [Place.advance_append, h.place]
  inOrder := h.inOrder
  stop_le := by
    intro t ht
    have := h.stop_le t ht
    rw [byteLength_append]
    omega
  counted := fun t ht => (h.counted t ht).more text

theorem add (h : s.Counts done) (text : List Char) (i : Item) (names : Interner) :
    (s.add text i names).Counts (done ++ text) := by
  have hblanks := h.blanks text
  cases i with
  | comment name => exact ⟨hblanks.place, hblanks.inOrder, hblanks.stop_le, hblanks.counted⟩
  | token kind =>
    have hspan : s.place.spanOf text = ⟨byteLength done, byteLength (done ++ text)⟩ := by
      rw [Place.spanOf, Place.offset_advance, h.place, Place.offset_first_advance, byteLength_append]
    have hmem : ∀ t ∈ (s.add text (.token kind) names).tokens.toList,
        t ∈ s.tokens.toList ∨ t = ⟨kind, s.place.spanOf text, s.place.position⟩ := by
      intro t ht
      simpa [Progress.add] using ht
    refine ⟨hblanks.place, h.inOrder.push ?_ ?_, fun t ht => ?_, fun t ht => ?_⟩
    · simp only [hspan, byteLength_append]
      omega
    · intro u hu
      simp only [hspan]
      exact h.stop_le u hu
    · rcases hmem t ht with ht | rfl
      · exact hblanks.stop_le t ht
      · simp only [hspan]
        exact Nat.le_refl _
    · rcases hmem t ht with ht | rfl
      · exact hblanks.counted t ht
      · exact (h.next text).more text

theorem start (names : Interner) (line : List Char) : (Lexing.start names line).Counts line := by
  unfold Lexing.start
  split
  · rename_i hempty
    rw [List.isEmpty_iff.1 hempty]
    exact empty names
  · exact (empty names).add line _ _

/-- What fails at the start of the rest of a text fails in the text. -/
theorem failsIn_errorAt (h : s.Counts done) {c : Char} {cs : List Char} {p : Piece} (hscan : scan c cs = p)
    {kind : LexErrorKind} (hfails : Fails p.text kind) : FailsIn (done ++ c :: cs) (s.errorAt p.text kind) := by
  have hcuts := cuts_of_scan hscan
  refine ⟨done, p.text, p.rest, by rw [hcuts.text_append_rest], hcuts.text_ne_nil, ?_, ?_, hfails⟩
  · rw [errorAt, Place.spanOf, Place.offset_advance, h.place, Place.offset_first_advance, byteLength_append]
  · rw [errorAt, h.place, Place.position_advance]

/-- Lexing goes on over the rest of a text, to its end or to where it fails. -/
theorem run (h : s.Counts done) (cs : List Char) :
    (∀ s', s.run cs = (none, s') → s'.Counts (done ++ cs)) ∧
      ∀ e s', s.run cs = (some e, s') → FailsIn (done ++ cs) e := by
  fun_induction Progress.run s cs generalizing done with
  | case1 s =>
    refine ⟨fun s' hrun => ?_, fun e s' hrun => by cases hrun⟩
    cases hrun
    rwa [List.append_nil]
  | case2 s c cs _ text rest hscan _ ih =>
    have happend : text ++ rest = c :: cs := (cuts_of_scan hscan).text_append_rest
    rw [← happend, ← List.append_assoc]
    exact ih (h.blanks text)
  | case3 s c cs _ shape text rest hscan _ i names hitem ih =>
    have happend : text ++ rest = c :: cs := (cuts_of_scan hscan).text_append_rest
    rw [← happend, ← List.append_assoc]
    exact ih (h.add text i names)
  | case4 s c cs _ shape text rest hscan _ kind names hitem =>
    refine ⟨fun s' hrun => (by cases hrun), fun e s' hrun => ?_⟩
    cases hrun
    exact h.failsIn_errorAt hscan (.inl ⟨c, cs, shape, rest, s.names, names, hscan, hitem⟩)
  | case5 s c cs _ text rest hscan =>
    refine ⟨fun s' hrun => (by cases hrun), fun e s' hrun => ?_⟩
    cases hrun
    exact h.failsIn_errorAt hscan (.inr ⟨c, rfl⟩)

end Progress.Counts

theorem lexText_failsIn {names : Interner} {cs : List Char} {e : LexError} {s : Progress}
    (h : lexText names cs = (some e, s)) : FailsIn cs e := by
  have hfails := ((Progress.Counts.start names (splitHashBang cs).1).run (splitHashBang cs).2).2 e s h
  rwa [splitHashBang_append] at hfails

/-- All of a text is counted. -/
theorem lexText_counts (names : Interner) (cs : List Char) :
    (∀ s, lexText names cs = (none, s) → s.Counts cs) ∧
      ∀ e s, lexText names cs = (some e, s) → CountedAt cs e.span e.position := by
  have counts := ((Progress.Counts.start names (splitHashBang cs).1).run (splitHashBang cs).2).1
  rw [splitHashBang_append] at counts
  exact ⟨counts, fun e s h => (lexText_failsIn h).counted⟩

end Lexing

open Lexing

/-- The tokens of a source, its end included, are in order and stand where counting arrives. -/
theorem lex_counted {source : String} {names names' : Interner} {tokens : TokenList}
    (h : lex source names = (.ok tokens, names')) :
    tokens.InOrder ∧ ∀ t ∈ tokens.toList, CountedAt source.toList t.span t.position := by
  obtain ⟨comments, hlex⟩ := lex_ok h
  obtain ⟨s, hrun, -, -, -, ⟨⟩⟩ := lexWithComments_ok hlex
  have counts := (lexText_counts names source.toList).1 s hrun
  have hend : s.place.offset = byteLength source.toList := by
    rw [counts.place, Place.offset_first_advance]
  refine ⟨counts.inOrder.push (Nat.le_refl _) fun u hu => ?_, fun t ht => ?_⟩
  · show u.span.stop ≤ s.place.offset
    rw [hend]
    exact counts.stop_le u hu
  · rw [TokenList.toList, Array.toList_push, List.mem_append, List.mem_singleton] at ht
    rcases ht with ht | rfl
    · exact counts.counted t ht
    · exact ⟨source.toList, [], (List.append_nil _).symm, hend.symm, by
        rw [counts.place, Place.position_advance]⟩

/-- A source that is lexed is short enough for 32-bit offsets. -/
theorem lex_size {source : String} {names names' : Interner} {tokens : TokenList}
    (h : lex source names = (.ok tokens, names')) : source.utf8ByteSize < wordLimit := by
  obtain ⟨comments, hlex⟩ := lex_ok h
  obtain ⟨s, -, hsize, -⟩ := lexWithComments_ok hlex
  rwa [byteLength_toList] at hsize

/-- No token but the end is empty. -/
theorem lex_nonempty {source : String} {names names' : Interner} {tokens : TokenList}
    (h : lex source names = (.ok tokens, names')) :
    ∀ t ∈ tokens.toList, t.kind ≠ .eof → t.span.start < t.span.stop := by
  obtain ⟨comments, hlex⟩ := lex_ok h
  obtain ⟨s, hrun, -, -, -, ⟨⟩⟩ := lexWithComments_ok hlex
  have covers := (Progress.Covers.start names source.toList).run hrun
  obtain ⟨spans, hperm, tiles⟩ := covers.spans
  intro t ht hkind
  rw [TokenList.toList, Array.toList_push, List.mem_append, List.mem_singleton] at ht
  rcases ht with ht | rfl
  · exact tiles.ne_empty _ (hperm.mem_iff.2 (List.mem_append_left _ (List.mem_map_of_mem ht)))
  · exact absurd rfl hkind

/-- In a source that is short enough, every token stands, and so does the error if there is one, at the
line and column that counting gives and that its offset is looked up to. -/
theorem lex_positions {source : String} (names : Interner) (h : source.utf8ByteSize + 1 < wordLimit) :
    (∀ tokens, (lex source names).1 = .ok tokens → ∀ t ∈ tokens.toList,
      CountedAt source.toList t.span t.position ∧ t.span.positionIn source = t.position) ∧
    ∀ failure, (lex source names).1 = .error failure → ∃ e, failure = .error e ∧
      CountedAt source.toList e.span e.position ∧ e.span.positionIn source = e.position := by
  have hsize : source.utf8ByteSize = byteLength source.toList := (byteLength_toList source).symm
  have counts := lexText_counts names source.toList
  constructor
  · intro tokens hlex t ht
    have hpair : lex source names = (.ok tokens, (lex source names).2) := Prod.ext hlex rfl
    have counted := (lex_counted hpair).2 t ht
    exact ⟨counted, counted.positionIn_eq (by omega)⟩
  · intro failure hlex
    rw [lex, lexWithComments_eq, if_neg (by omega)] at hlex
    split at hlex
    · cases hlex
    rename_i failure' names' hfailed
    cases hlex
    split at hfailed
    · rename_i e s hrun
      cases hfailed
      have counted := counts.2 e s hrun
      exact ⟨e, rfl, counted, counted.positionIn_eq (by omega)⟩
    · rename_i s hrun
      -- a line or column that cannot be counted needs more characters
      have hlength := length_le_byteLength source.toList
      have hfits : s.place.position.fits = true := by
        rw [(counts.1 s hrun).place]
        exact Place.fits_of_length_lt (by omega)
      rw [if_pos hfits] at hfailed
      cases hfailed

/-- Tokens behind a first line, a character of two bytes and one of no width; and an error on the second
line, behind a carriage return and two characters of two bytes. -/
theorem several_lines_positions :
    (∃ tokens, (lex "#!λ\r\nx\uFEFF'λ'" .new).1 = .ok tokens ∧ ∀ t ∈ tokens.toList,
      CountedAt "#!λ\r\nx\uFEFF'λ'".toList t.span t.position ∧
        t.span.positionIn "#!λ\r\nx\uFEFF'λ'" = t.position) ∧
    ∃ e, (lex "a\r\n'λ' λ" .new).1 = .error (.error e) ∧
      CountedAt "a\r\n'λ' λ".toList e.span e.position ∧ e.span.positionIn "a\r\n'λ' λ" = e.position := by
  have succeeds : (lex "#!λ\r\nx\uFEFF'λ'" .new).1.isOk = true := by decide +kernel
  have fails : (lex "a\r\n'λ' λ" .new).1.isOk = false := by decide +kernel
  constructor
  · cases hlex : (lex "#!λ\r\nx\uFEFF'λ'" .new).1 with
    | error failure => rw [hlex] at succeeds; cases succeeds
    | ok tokens => exact ⟨tokens, rfl, (lex_positions .new (by decide +kernel)).1 tokens hlex⟩
  · cases hlex : (lex "a\r\n'λ' λ" .new).1 with
    | ok tokens => rw [hlex] at fails; cases fails
    | error failure =>
      obtain ⟨e, rfl, counted⟩ := (lex_positions .new (by decide +kernel)).2 failure hlex
      exact ⟨e, rfl, counted⟩

end SolSyntax
