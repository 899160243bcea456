import SolSyntax.Terminal
import SolSyntax.Proofs.Positions

/-!
# Marks under a span

With a source attached, a label is written as the line that its span is on and a row of marks below it.
The number of the line, the line itself, the column and the number of marks come from different
computations: a look-up among the starts of lines, a cut between two of these, a count of characters
before the span and one of those in it.  They fit together: the marks stand under the span.

They do so as far as 32-bit numbers reach.  A line that is ended past the last of these as an offset is
shown up to there only, and the line with the last of these as its number is not shown at all.

Principal results: `LineTable.lineText_count` — the text of a line; `Terminal.renderLabel_eq` — one
label; `Terminal.render_marks_span` — a whole diagnostic.
-/

namespace SolSyntax

/-- The line with the place between two texts on it, without the line feed and the carriage returns that
end it. -/
def lineAround (before after : List Char) : List Char :=
  trimEnd isLineEnd (lastLine before ++ after.takeWhile (· != '\n'))

/-- A text without line ends stays, with all before it. -/
theorem trimEnd_text {text : List Char} (hne : text ≠ []) (hline : ∀ c ∈ text, isLineEnd c = false)
    (before after : List Char) :
    trimEnd isLineEnd (before ++ (text ++ after)) = before ++ (text ++ trimEnd isLineEnd after) := by
  have hstays := hline _ (List.getLast_mem hne)
  have hsplit := List.dropLast_concat_getLast hne
  generalize text.getLast hne = c at hsplit hstays
  rw [← hsplit, List.append_assoc, List.singleton_append, ← List.append_assoc, trimEnd_of_stays hstays]
  simp

theorem takeWhile_text {text : List Char} (hline : ∀ c ∈ text, isLineEnd c = false) (after : List Char) :
    (text ++ after).takeWhile (· != '\n') = text ++ after.takeWhile (· != '\n') :=
  List.takeWhile_append_of_pos fun c hc => bne_iff_ne.2 fun hfeed => by
    have := hline c hc
    rw [hfeed] at this
    cases this

/-- On the line around a text without line ends, the text stands behind what comes before it there. -/
theorem lineAround_text {text : List Char} (hne : text ≠ []) (hline : ∀ c ∈ text, isLineEnd c = false)
    (before after : List Char) : lineAround before (text ++ after) =
      lastLine before ++ (text ++ trimEnd isLineEnd (after.takeWhile (· != '\n'))) := by
  rw [lineAround, takeWhile_text hline, trimEnd_text hne hline]

theorem length_trimEnd_le (p : Char → Bool) (cs : List Char) : (trimEnd p cs).length ≤ cs.length := by
  obtain ⟨ends, hsplit, -⟩ := exists_trimEnd_append p cs
  have := congrArg List.length hsplit
  rw [List.length_append] at this
  omega

/-- A text either has no line feed, or is cut at its first one. -/
theorem takeWhile_eq_or_cut (cs : List Char) :
    cs.takeWhile (· != '\n') = cs ∧ cs.count '\n' = 0 ∨
      (cs.takeWhile (· != '\n')).count '\n' = 0 ∧ ∃ more, cs = cs.takeWhile (· != '\n') ++ '\n' :: more := by
  have hnone : (cs.takeWhile (· != '\n')).count '\n' = 0 := by
    refine List.count_eq_zero.2 fun hmem => ?_
    have := List.all_eq_true.1 (List.all_takeWhile (p := (· != '\n')) (l := cs)) _ hmem
    simp at this
  have hsplit := List.takeWhile_append_dropWhile (p := (· != '\n')) (l := cs)
  cases htail : cs.dropWhile (· != '\n') with
  | nil =>
    rw [htail, List.append_nil] at hsplit
    exact .inl ⟨hsplit, hsplit ▸ hnone⟩
  | cons c more =>
    have hc : c = '\n' := by
      have := List.head_dropWhile_not (· != '\n') (w := by rw [htail]; simp) (l := cs)
      simpa [htail] using this
    rw [htail, hc] at hsplit
    exact .inr ⟨hnone, more, hsplit.symm⟩

/-- Each of the characters that end a line takes one byte. -/
theorem utf8Size_of_isLineEnd {c : Char} (h : isLineEnd c = true) : c.utf8Size = 1 := by
  rcases Bool.or_eq_true_iff.1 h with h | h
  · exact eq_of_beq h ▸ rfl
  · exact eq_of_beq h ▸ rfl

namespace LineTable

/-- An offset can be shown on its line: the line has a 32-bit number that is not the last, and so has the
column a 32-bit number. -/
def Shows (t : LineTable) (offset : Nat) : Prop :=
  (t.position offset).line + 1 < wordLimit ∧ (t.position offset).column < wordLimit

theorem locate_of_shows {t : LineTable} {offset : Nat} (h : t.Shows offset) :
    t.locate offset = .ok (t.position offset) :=
  if_pos (decide_eq_true ⟨Nat.lt_of_succ_lt h.1, h.2⟩)

theorem exists_lineText {t : LineTable} {offset : Nat} (h : t.Shows offset) :
    ∃ line, t.lineText (t.position offset).line = .ok line := by
  unfold lineText
  split
  · exact ⟨_, rfl⟩
  · exact ⟨_, if_pos h.1⟩

/-- A line goes up to where the next one starts. -/
theorem lineText_of_next {before line after : List Char} (hword : byteLength before < wordLimit)
    (hnumber : before.count '\n' + 2 < wordLimit)
    (hnext : ((ofChars (before ++ (line ++ after))).lineStart? (before.count '\n' + 2)).getD
      (byteLength (before ++ (line ++ after))) = byteLength (before ++ line)) :
    (ofChars (before ++ (line ++ after))).lineText (before.count '\n' + 1) =
      .ok (some (trimEnd isLineEnd (lastLine before ++ line))) := by
  obtain ⟨head, hbefore, hstart⟩ := lineStart?_count before (line ++ after)
  have hhead : byteLength head < wordLimit := by
    rw [hbefore, byteLength_append] at hword
    omega
  have hslice : sliceBytes (byteLength head) (byteLength (before ++ line)) (before ++ (line ++ after)) =
      some (lastLine before ++ line) := by
    refine sliceBytes_eq_some.2 ⟨head, after, ?_, rfl, ?_⟩
    · rw [List.append_assoc, ← List.append_assoc head, ← hbefore]
    · rw [← List.append_assoc, ← hbefore]
  have hsource : (ofChars (before ++ (line ++ after))).source = before ++ (line ++ after) := rfl
  rw [lineText, hstart, saturated_eq hhead]
  dsimp only
  rw [if_pos hnumber, hsource, show before.count '\n' + 1 + 1 = before.count '\n' + 2 from rfl, hnext, hslice,
    Option.map_some]

/-- What ends a line can be cut at every byte, and so at where the next line counts as starting. -/
theorem exists_cut_ends {front ends : List Char} (hends : ∀ c ∈ ends, isLineEnd c = true)
    (hfront : byteLength front < wordLimit) : ∃ shown hidden, ends = shown ++ hidden ∧
      byteLength (front ++ shown) = saturated (byteLength (front ++ ends)) := by
  have hsize : ∀ {cs}, cs ⊆ ends → byteLength cs = cs.length := fun hcs =>
    byteLength_eq_length fun c hc => utf8Size_of_isLineEnd (hends c (hcs hc))
  refine ⟨ends.take (wordLimit - 1 - byteLength front), ends.drop (wordLimit - 1 - byteLength front),
    (List.take_append_drop _ _).symm, ?_⟩
  rw [byteLength_append, byteLength_append, hsize (List.take_subset _ _), hsize (List.Subset.refl _),
    List.length_take, saturated]
  omega

/-- The text of the line that a place between two characters is on, if it ends within reach of 32-bit
offsets or with the source. -/
theorem lineText_count {before after : List Char} (hword : byteLength before < wordLimit)
    (hnumber : before.count '\n' + 2 < wordLimit)
    (hstop : '\n' ∈ after →
      byteLength (before ++ trimEnd isLineEnd (after.takeWhile (· != '\n'))) < wordLimit) :
    (ofChars (before ++ after)).lineText (before.count '\n' + 1) = .ok (some (lineAround before after)) := by
  rw [lineAround]
  rcases takeWhile_eq_or_cut after with ⟨hrest, hnone⟩ | ⟨hnone, more, hcut⟩
  · -- the last line of the text
    have hnext : (ofChars (before ++ (after ++ []))).lineStart? (before.count '\n' + 2) = none := by
      rw [lineStart?, if_neg (Nat.succ_ne_zero _), ofChars, List.getElem?_eq_none]
      simp [length_lineStartsFrom, hnone]
    have htext := @lineText_of_next before after [] hword hnumber (by
      rw [hnext, Option.getD_none, List.append_nil])
    rw [List.append_nil] at htext
    rw [hrest]
    exact htext
  · have hfeed := hstop (hcut ▸ List.mem_append_right _ List.mem_cons_self)
    generalize after.takeWhile (· != '\n') = rest at hnone hcut hfeed
    obtain ⟨returns, hrest, hreturns⟩ := exists_trimEnd_append isLineEnd rest
    generalize trimEnd isLineEnd rest = kept at hrest hfeed
    have hends : ∀ c ∈ returns ++ ['\n'], isLineEnd c = true := by
      intro c hc
      rcases List.mem_append.1 hc with hc | hc
      · exact hreturns c hc
      · exact List.mem_singleton.1 hc ▸ rfl
    have hafter : after = (kept ++ (returns ++ ['\n'])) ++ more := by
      rw [hcut, hrest]
      simp
    -- the next line starts behind the line feed, or counts as starting between what ends this one
    obtain ⟨head, hhead, hnext⟩ := lineStart?_count (before ++ (kept ++ (returns ++ ['\n']))) more
    have hlast : lastLine (before ++ (kept ++ (returns ++ ['\n']))) = [] := by
      rw [← List.append_assoc, ← List.append_assoc, lastLine_snoc, if_pos rfl]
    have hcount : (before ++ (kept ++ (returns ++ ['\n']))).count '\n' + 1 = before.count '\n' + 2 := by
      rw [← List.append_assoc kept, ← hrest, List.count_append, List.count_append, hnone]
      rfl
    rw [hlast, List.append_nil] at hhead
    rw [← hhead, hcount] at hnext
    obtain ⟨shown, hidden, hsplit, hbytes⟩ := exists_cut_ends hends hfeed
    have hline : trimEnd isLineEnd (lastLine before ++ rest) =
        trimEnd isLineEnd (lastLine before ++ (kept ++ shown)) := by
      rw [hrest, ← List.append_assoc, ← List.append_assoc, trimEnd_append hreturns,
        trimEnd_append fun c hc => hends c (hsplit ▸ List.mem_append_left _ hc)]
    have hsource : before ++ after = before ++ ((kept ++ shown) ++ (hidden ++ more)) := by
      rw [hafter, hsplit]
      simp
    rw [List.append_assoc, ← hafter] at hnext
    rw [hline, hsource]
    refine lineText_of_next hword hnumber ?_
    rw [← hsource, hnext, Option.getD_some, ← List.append_assoc before kept, ← hbytes, List.append_assoc]

/-- A line that is ended past the last 32-bit offset is shown up to there. -/
theorem lineText_cut {before shown hidden : List Char} (hnumber : before.count '\n' + 2 < wordLimit)
    (hcut : byteLength (before ++ shown) + 1 = wordLimit) (hshown : '\n' ∉ shown) (hhidden : '\n' ∉ hidden)
    (more : List Char) :
    (ofChars (before ++ (shown ++ (hidden ++ '\n' :: more)))).lineText (before.count '\n' + 1) =
      .ok (some (trimEnd isLineEnd (lastLine before ++ shown))) := by
  obtain ⟨head, hhead, hnext⟩ := lineStart?_count (before ++ (shown ++ (hidden ++ ['\n']))) more
  have hlast : lastLine (before ++ (shown ++ (hidden ++ ['\n']))) = [] := by
    rw [← List.append_assoc, ← List.append_assoc, lastLine_snoc, if_pos rfl]
  have hcount : (before ++ (shown ++ (hidden ++ ['\n']))).count '\n' + 1 = before.count '\n' + 2 := by
    rw [List.count_append, List.count_append, List.count_append, List.count_eq_zero.2 hshown,
      List.count_eq_zero.2 hhidden]
    rfl
  have hsource : before ++ (shown ++ (hidden ++ ['\n'])) ++ more =
      before ++ (shown ++ (hidden ++ '\n' :: more)) := by simp
  have hstart : saturated (byteLength (before ++ (shown ++ (hidden ++ ['\n'])))) =
      byteLength (before ++ shown) := by
    rw [← List.append_assoc, byteLength_append, saturated]
    omega
  rw [hlast, List.append_nil] at hhead
  rw [← hhead, hcount, hsource, hstart] at hnext
  refine lineText_of_next ?_ hnumber ?_
  · rw [byteLength_append] at hcut
    omega
  · rw [hnext, Option.getD_some]

/-- The line with the last 32-bit number cannot be told. -/
theorem lineText_last {before : List Char} (h : before.count '\n' + 2 = wordLimit) (after : List Char) :
    (ofChars (before ++ after)).lineText (before.count '\n' + 1) = .error .wordOverflow := by
  obtain ⟨head, -, hstart⟩ := lineStart?_count before after
  rw [lineText, hstart]
  exact if_neg (by omega)

end LineTable

/-! ## One label -/

namespace Terminal

theorem firstLine_eq {text : List Char} (h : '\n' ∉ text) : firstLine text = text := by
  have hall : ∀ c ∈ text, decide (c ≠ '\n') = true := fun c hc => decide_eq_true fun e => h (e ▸ hc)
  have hrun : (text ++ []).takeWhile (fun c => decide (c ≠ '\n')) = text ++ [] :=
    List.takeWhile_append_of_pos hall
  rw [List.append_nil] at hrun
  rw [firstLine, hrun]
  exact if_neg fun hshort => Nat.lt_irrefl _ hshort.1

/-- The arrow in the header of a label and the mark under its span. -/
def arrowOf (l : Label) : String := if l.isPrimary then "-->" else "   "

def markOf (l : Label) : Char := if l.isPrimary then '^' else '-'

/-- A label whose line can be told is written, and ends in a line feed. -/
theorem exists_renderLabel (t : Terminal) {l : Label}
    (h : ∀ path lines, t.source = some (path, lines) → lines.Shows l.span.start) :
    ∃ text, t.renderLabel l = .ok (text ++ "\n") := by
  unfold renderLabel
  dsimp only
  cases hsource : t.source with
  | none => exact ⟨_, rfl⟩
  | some source =>
    obtain ⟨path, lines⟩ := source
    obtain ⟨line, hline⟩ := LineTable.exists_lineText (h path lines hsource)
    dsimp only
    unfold renderSnippet
    rw [LineTable.locate_of_shows (h path lines hsource)]
    simp only [bind, Except.bind, hline]
    exact ⟨_, rfl⟩

/-- A label is written with its message behind as many marks as the span has characters, below the text
of its line and as far in as the span is on the line. -/
theorem renderLabel_of_lineText {before text after line : List Char} {l : Label}
    (hspan : l.span = ⟨byteLength before, byteLength (before ++ text)⟩) (hne : text ≠ [])
    (hline : ∀ c ∈ text, isLineEnd c = false) (hword : byteLength before + 1 < wordLimit)
    (hshows : (LineTable.ofChars (before ++ (text ++ after))).Shows l.span.start)
    (htext : (LineTable.ofChars (before ++ (text ++ after))).lineText (before.count '\n' + 1) = .ok (some line))
    (path : String) :
    let gutter := toString (before.count '\n' + 1)
    let pad := repeated ' ' gutter.length
    let column := (lastLine before).length + 1
    renderLabel ⟨false, some (path, .ofChars (before ++ (text ++ after)))⟩ l =
      .ok (pad ++ arrowOf l ++ " " ++ path ++ ":" ++ (gutter ++ ":" ++ toString column) ++ "\n" ++
        pad ++ " |\n" ++
        gutter ++ " | " ++ String.ofList line ++ "\n" ++
        pad ++ " | " ++ repeated ' ' (lastLine before).length ++ repeated (markOf l) text.length ++ " " ++
        l.message ++ "\n") := by
  intro gutter pad column
  have hslice : l.span.slice (before ++ (text ++ after)) = text := by
    rw [Span.slice, hspan, sliceBytes_eq_some.2 ⟨before, after, rfl, rfl, rfl⟩, Option.getD_some]
  have hmarks : max 1 (firstLine text).length = text.length := by
    rw [firstLine_eq fun hmem => by cases hline _ hmem]
    exact Nat.max_eq_right (List.length_pos_iff.2 hne)
  have hposition : (LineTable.ofChars (before ++ (text ++ after))).position l.span.start = .behind before := by
    rw [hspan]
    exact LineTable.position_byteLength (.inl hword)
  have hsource : (LineTable.ofChars (before ++ (text ++ after))).source = before ++ (text ++ after) := rfl
  have hplain : ∀ style s, styled ⟨false, some (path, .ofChars (before ++ (text ++ after)))⟩ style s = s :=
    fun _ _ => rfl
  unfold renderLabel
  dsimp only
  unfold renderSnippet
  rw [LineTable.locate_of_shows hshows, hposition, hsource, hslice, hmarks]
  dsimp only [Position.behind, bind, Except.bind]
  rw [htext]
  dsimp only
  rw [Option.getD_some, Nat.add_sub_cancel, hplain, hplain]
  rfl

/-- The text of the line is that between its ends, if they are within reach. -/
theorem renderLabel_eq {before text after : List Char} {l : Label}
    (hspan : l.span = ⟨byteLength before, byteLength (before ++ text)⟩) (hne : text ≠ [])
    (hline : ∀ c ∈ text, isLineEnd c = false) (hword : byteLength (before ++ text) < wordLimit)
    (hstop : '\n' ∈ after →
      byteLength (before ++ (text ++ trimEnd isLineEnd (after.takeWhile (· != '\n')))) < wordLimit)
    (hshows : (LineTable.ofChars (before ++ (text ++ after))).Shows l.span.start) (path : String) :
    let gutter := toString (before.count '\n' + 1)
    let pad := repeated ' ' gutter.length
    let column := (lastLine before).length + 1
    renderLabel ⟨false, some (path, .ofChars (before ++ (text ++ after)))⟩ l =
      .ok (pad ++ arrowOf l ++ " " ++ path ++ ":" ++ (gutter ++ ":" ++ toString column) ++ "\n" ++
        pad ++ " |\n" ++
        gutter ++ " | " ++ String.ofList (lineAround before (text ++ after)) ++ "\n" ++
        pad ++ " | " ++ repeated ' ' (lastLine before).length ++ repeated (markOf l) text.length ++ " " ++
        l.message ++ "\n") := by
  have hbytes := length_le_byteLength text
  have hsome := List.length_pos_iff.2 hne
  have hbefore : byteLength before + 1 < wordLimit := by
    rw [byteLength_append] at hword
    omega
  have hnumber : before.count '\n' + 2 < wordLimit := by
    have := hshows.1
    rwa [hspan, LineTable.position_byteLength (.inl hbefore)] at this
  refine renderLabel_of_lineText hspan hne hline hbefore hshows ?_ path
  refine LineTable.lineText_count (Nat.lt_of_succ_lt hbefore) hnumber fun hmem => ?_
  rw [takeWhile_text hline, ← List.nil_append (text ++ _), trimEnd_text hne hline, List.nil_append]
  refine hstop ((List.mem_append.1 hmem).resolve_left fun hfeed => ?_)
  cases hline _ hfeed

/-! ## A whole diagnostic -/

/-- Labels that can be written one by one can be written one after the other. -/
theorem exists_mapM_renderLabel (t : Terminal) {labels : List Label}
    (h : ∀ l ∈ labels, ∃ text, t.renderLabel l = .ok (text ++ "\n")) :
    ∃ texts, labels.mapM t.renderLabel = .ok texts ∧ ∀ text ∈ texts, ∃ line, text = line ++ "\n" := by
  induction labels with
  | nil => exact ⟨[], rfl, fun _ hmem => (by cases hmem)⟩
  | cons l labels ih =>
    obtain ⟨⟨line, hl⟩, hlabels⟩ := List.forall_mem_cons.1 h
    obtain ⟨texts, hmap, htexts⟩ := ih hlabels
    refine ⟨(line ++ "\n") :: texts, ?_, List.forall_mem_cons.2 ⟨⟨line, rfl⟩, htexts⟩⟩
    rw [List.mapM_cons, hl, hmap]
    rfl

/-- Whatever ends in a line feed does so with texts behind it that do. -/
theorem exists_append_join (front : String) {texts : List String}
    (h : ∀ text ∈ texts, ∃ line, text = line ++ "\n") :
    ∃ before, front ++ "\n" ++ String.join texts = before ++ "\n" := by
  induction texts generalizing front with
  | nil => exact ⟨front, String.append_empty⟩
  | cons text texts ih =>
    obtain ⟨⟨line, rfl⟩, htexts⟩ := List.forall_mem_cons.1 h
    rw [String.join_cons, ← String.append_assoc, ← String.append_assoc]
    exact ih _ htexts

theorem length_repeated (c : Char) (n : Nat) : (repeated c n).length = n := by
  simp [repeated]

/-- **The marks stand under the span.**  A diagnostic whose labels are all on lines that can be told is
written, without colours, with a header for each label that names the line and the column of its span; the
line in the source follows, unless it is ended past the reach of 32-bit offsets, and marks below just those
of its characters that the span covers. -/
theorem render_marks_span {source : String} {before text after : List Char} {d : Diagnostic} {l : Label}
    (hsource : source.toList = before ++ (text ++ after)) (hl : l ∈ d.labels)
    (hspan : l.span = ⟨byteLength before, byteLength (before ++ text)⟩) (hne : text ≠ [])
    (hline : ∀ c ∈ text, c ≠ '\n' ∧ c ≠ '\r') (hword : l.span.stop < wordLimit)
    (hstop : '\n' ∈ after →
      byteLength (before ++ (text ++ trimEnd isLineEnd (after.takeWhile (· != '\n')))) < wordLimit)
    (hshows : ∀ m ∈ d.labels, (LineTable.ofSource source).Shows m.span.start) (path : String) :
    let gutter := toString (before.count '\n' + 1)
    let pad := repeated ' ' gutter.length
    let line := lineAround before (text ++ after)
    let indent := (lastLine before).length
    pad.length = gutter.length ∧ (line.drop indent).take text.length = text ∧
    ∃ front back, render ⟨false, some (path, .ofSource source)⟩ d = .ok (front ++ "\n" ++
      (pad ++ arrowOf l ++ " " ++ path ++ ":" ++ gutter ++ ":" ++ toString (indent + 1)) ++ "\n" ++
      (pad ++ " |") ++ "\n" ++
      (gutter ++ " | " ++ String.ofList line) ++ "\n" ++
      (pad ++ " | " ++ repeated ' ' indent ++ repeated (markOf l) text.length) ++ " " ++ l.message ++ "\n" ++
      back) := by
  intro gutter pad line indent
  have hends : ∀ c ∈ text, isLineEnd c = false := fun c hc =>
    Bool.or_eq_false_iff.2 ⟨beq_false_of_ne (hline c hc).1, beq_false_of_ne (hline c hc).2⟩
  refine ⟨length_repeated _ _, ?_, ?_⟩
  · show ((lineAround before (text ++ after)).drop indent).take text.length = text
    rw [lineAround_text hne hends, List.drop_left, List.take_left]
  · have hlabel := renderLabel_eq hspan hne hends (by rwa [hspan] at hword) hstop
      (by rw [← hsource]; exact hshows l hl) path
    rw [← hsource] at hlabel
    have hbar : " |\n" = " |" ++ "\n" := rfl
    generalize ht : (⟨false, some (path, .ofSource source)⟩ : Terminal) = t
    rw [← LineTable.ofSource, ht] at hlabel
    have hwritten : ∀ m ∈ d.labels, ∃ text, t.renderLabel m = .ok (text ++ "\n") := by
      intro m hm
      refine exists_renderLabel t fun path' lines htable => ?_
      rw [← ht] at htable
      obtain ⟨-, rfl⟩ := Prod.mk.inj (Option.some.inj htable)
      exact hshows m hm
    obtain ⟨labels, others, hlabels⟩ := List.append_of_mem hl
    rw [hlabels] at hwritten
    obtain ⟨texts, hmap, htexts⟩ := exists_mapM_renderLabel t fun m hm =>
      hwritten m (List.mem_append_left _ hm)
    obtain ⟨texts', hmap', -⟩ := exists_mapM_renderLabel t fun m hm =>
      hwritten m (List.mem_append_right _ (List.mem_cons_of_mem _ hm))
    obtain ⟨front, hfront⟩ := exists_append_join
      (t.styled d.severity.style d.severity.text ++ t.styled .bold ("[" ++ d.code.text ++ "]") ++ ": " ++
        d.message) htexts
    generalize hback : (d.expectedSummary?.map (t.renderRemark "expected")).getD "" ++
      String.join (d.notes.map (t.renderRemark "note")) ++ "\n" = back
    refine ⟨front, String.join texts' ++ back, ?_⟩
    obtain ⟨written, hone⟩ : ∃ written, t.renderLabel l = .ok written := ⟨_, hlabel⟩
    have hwrites := Except.ok.inj (hone.symm.trans hlabel)
    rw [render, hlabels, List.mapM_append, List.mapM_cons, hmap, hmap', hone]
    refine congrArg Except.ok ?_
    calc _ = t.styled d.severity.style d.severity.text ++ t.styled .bold ("[" ++ d.code.text ++ "]") ++ ": " ++
            d.message ++ "\n" ++ String.join texts ++ (written ++ (String.join texts' ++ back)) := by
          rw [String.join_append, String.join_cons, ← hback]
          simp only [String.append_assoc]
      _ = front ++ "\n" ++ (written ++ (String.join texts' ++ back)) := by
          rw [hfront]
      _ = _ := by
          rw [hwrites, hbar]
          simp only [String.append_assoc, gutter, pad, line, indent]

/-- A span on the second of three lines, behind a character of two bytes. -/
theorem second_line_marks_span :
    let d : Diagnostic := ⟨.unexpectedChar, .error, "no", [⟨⟨6, 7⟩, "here", true⟩], [], [], none⟩
    "a\r\nλ b\r\nc".toList = "a\r\nλ ".toList ++ ("b".toList ++ "\r\nc".toList) ∧
    ∃ front back, render ⟨false, some ("m.sol", .ofSource "a\r\nλ b\r\nc")⟩ d = .ok (front ++ "\n" ++
      " --> m.sol:2:3" ++ "\n" ++ "  |" ++ "\n" ++ "2 | λ b" ++ "\n" ++ "  |   ^" ++ " " ++ "here" ++ "\n" ++
      back) := by
  intro d
  have hsource : "a\r\nλ b\r\nc".toList = "a\r\nλ ".toList ++ ("b".toList ++ "\r\nc".toList) := by decide
  have hl : (⟨⟨6, 7⟩, "here", true⟩ : Label) ∈ d.labels := List.mem_cons_self
  have hline : ∀ c ∈ "b".toList, c ≠ '\n' ∧ c ≠ '\r' := by simp
  have hshows : ∀ m ∈ d.labels, (LineTable.ofSource "a\r\nλ b\r\nc").Shows m.span.start := by
    intro m hm
    rw [List.mem_singleton.1 hm]
    exact ⟨by decide +kernel, by decide +kernel⟩
  exact ⟨hsource, (render_marks_span hsource hl (by decide) (by decide) hline (by decide) (fun _ => by decide)
    hshows "m.sol").2.2⟩

/-- The rendering of one label of a diagnostic with no more to tell. -/
theorem render_single {t : Terminal} {code : ErrorCode} {severity : Severity} {message : String} {l : Label} :
    t.render ⟨code, severity, message, [l], [], [], none⟩ = (t.renderLabel l).map fun text =>
      t.styled severity.style severity.text ++ t.styled .bold ("[" ++ code.text ++ "]") ++ ": " ++ message ++
        "\n" ++ text ++ "\n" := by
  rw [render, List.mapM_cons, List.mapM_nil]
  cases t.renderLabel l with
  | error fault => rfl
  | ok text =>
    refine congrArg Except.ok ?_
    simp [Diagnostic.expectedSummary?]

/-- What is written for the first character of a line that is cut. -/
theorem render_cut_line {shown hidden : List Char} (hcut : byteLength (')' :: shown) + 1 = wordLimit)
    (hshown : '\n' ∉ shown) (hhidden : '\n' ∉ hidden) :
    render ⟨false, some ("m.sol", .ofChars (')' :: (shown ++ (hidden ++ ['\n']))))⟩
        ⟨.unexpectedChar, .error, "no", [⟨⟨0, 1⟩, "here", true⟩], [], [], none⟩ =
      .ok ("error[E0006]: no\n --> m.sol:1:1\n  |\n1 | " ++
        String.ofList (trimEnd isLineEnd (')' :: shown)) ++ "\n  | ^ here\n\n") := by
  have hword : byteLength [] + 1 < wordLimit := by decide
  have hshows : (LineTable.ofChars ([] ++ ([')'] ++ (shown ++ (hidden ++ ['\n']))))).Shows 0 := by
    have hposition : (LineTable.ofChars ([] ++ ([')'] ++ (shown ++ (hidden ++ ['\n']))))).position 0 =
        .behind [] := LineTable.position_byteLength (.inl hword)
    rw [LineTable.Shows, hposition]
    exact ⟨by decide, by decide⟩
  have htext : (LineTable.ofChars ([] ++ ([')'] ++ (shown ++ (hidden ++ ['\n']))))).lineText 1 =
      .ok (some (trimEnd isLineEnd (')' :: shown))) :=
    @LineTable.lineText_cut [] (')' :: shown) hidden (by decide) hcut (by simpa using hshown) hhidden []
  have hlabel := @renderLabel_of_lineText [] [')'] _ _ ⟨⟨0, 1⟩, "here", true⟩ rfl
    (by simp) (List.forall_mem_singleton.2 rfl) hword hshows htext "m.sol"
  have hfront : "error[E0006]: no\n --> m.sol:1:1\n  |\n1 | " =
      "error" ++ "[E0006]" ++ ": " ++ "no" ++ "\n" ++ (" " ++ "-->" ++ " " ++ "m.sol" ++ ":" ++
        ("1" ++ ":" ++ "1") ++ "\n" ++ " " ++ " |\n" ++ "1" ++ " | ") := by decide
  have hback : "\n  | ^ here\n\n" =
      "\n" ++ " " ++ " | " ++ "" ++ "^" ++ " " ++ "here" ++ "\n" ++ "\n" := by decide
  rw [render_single, hfront, hback]
  refine (congrArg (Except.map _) hlabel).trans (congrArg Except.ok ?_)
  simp only [String.append_assoc]
  rfl

/-- Nothing is written for a label on the line with the last 32-bit number. -/
theorem render_last_line {before after : List Char} {l : Label} (hline : before.count '\n' + 2 = wordLimit)
    (hspan : l.span.start = byteLength before) (hword : byteLength (before ++ after) < wordLimit)
    (path : String) :
    render ⟨false, some (path, .ofChars (before ++ after))⟩
      ⟨.unexpectedChar, .error, "no", [l], [], [], none⟩ = .error .wordOverflow := by
  have hlocate : (LineTable.ofChars (before ++ after)).locate l.span.start = .ok (.behind before) := by
    -- all but one character of the text before are line feeds
    have hcolumn : (lastLine before).length + 1 < wordLimit := by
      obtain ⟨head, hbefore, hlast, -⟩ := exists_append_lastLine before
      have hlength := congrArg List.length hbefore
      have hcount := congrArg (List.count '\n') hbefore
      have hbytes := length_le_byteLength before
      have hhead := List.count_le_length (a := '\n') (l := head)
      rw [List.length_append] at hlength
      rw [List.count_append, List.count_eq_zero.2 hlast] at hcount
      rw [byteLength_append] at hword
      have : 2 < wordLimit := by decide
      omega
    rw [hspan, LineTable.locate, LineTable.position_byteLength (.inr hword)]
    exact if_pos (decide_eq_true ⟨Nat.lt_of_succ_le (Nat.le_of_eq hline), hcolumn⟩)
  have hlabel : renderLabel ⟨false, some (path, .ofChars (before ++ after))⟩ l = .error .wordOverflow := by
    unfold renderLabel
    dsimp only
    unfold renderSnippet
    rw [hlocate]
    dsimp only [Position.behind, bind, Except.bind]
    rw [LineTable.lineText_last hline]
  rw [render_single, hlabel]
  rfl

/-- A line that is long enough is not in what is written for its first character. -/
theorem line_not_rendered {n m : Nat} (hn : n + 2 = wordLimit) (hm : n + 100 ≤ m) :
    lineAround [] (')' :: List.replicate m ' ' ++ ['\n']) = ')' :: List.replicate m ' ' ∧
      ∃ text, render ⟨false, some ("m.sol", .ofChars (')' :: List.replicate m ' ' ++ ['\n']))⟩
          ⟨.unexpectedChar, .error, "no", [⟨⟨0, 1⟩, "here", true⟩], [], [], none⟩ = .ok text ∧
        ¬∃ front back, text = front ++ String.ofList (')' :: List.replicate m ' ') ++ back := by
  have hblank : ∀ k, '\n' ∉ List.replicate k ' ' := fun k hmem => by cases List.eq_of_mem_replicate hmem
  constructor
  · have hends : ∀ c ∈ ')' :: List.replicate m ' ', isLineEnd c = false := by
      intro c hc
      rcases List.mem_cons.1 hc with rfl | hc
      · rfl
      · rw [List.eq_of_mem_replicate hc]
        rfl
    rw [lineAround_text (List.cons_ne_nil _ _) hends]
    exact List.append_nil _
  · obtain ⟨k, rfl⟩ := Nat.exists_eq_add_of_le (Nat.le_of_add_right_le hm)
    have hcut : byteLength (')' :: List.replicate n ' ') + 1 = wordLimit := by
      rw [byteLength_cons, byteLength_replicate n rfl, show ')'.utf8Size = 1 from rfl]
      omega
    have hsplit : ')' :: List.replicate (n + k) ' ' ++ ['\n'] =
        ')' :: (List.replicate n ' ' ++ (List.replicate k ' ' ++ ['\n'])) := by
      rw [← List.replicate_append_replicate, List.cons_append, List.append_assoc]
    rw [hsplit]
    refine ⟨_, render_cut_line hcut (hblank n) (hblank k), ?_⟩
    rintro ⟨front, back, htext⟩
    -- all that is written is shorter than the line
    have hkept := length_trimEnd_le isLineEnd (')' :: List.replicate n ' ')
    have hlength := congrArg String.length htext
    have hfront : "error[E0006]: no\n --> m.sol:1:1\n  |\n1 | ".length = 40 := by decide
    have hback : "\n  | ^ here\n\n".length = 13 := by decide
    simp only [String.length_append, String.length_ofList, List.length_cons, List.length_replicate]
      at hlength hkept
    omega

/-- Nothing is written for the character behind so many line feeds that its line has the last number. -/
theorem line_behind_feeds_not_rendered {n : Nat} (hn : n + 2 = wordLimit) :
    byteLength (List.replicate n '\n' ++ [')']) < wordLimit ∧
      Span.slice ⟨n, n + 1⟩ (List.replicate n '\n' ++ [')']) = [')'] ∧
      render ⟨false, some ("m.sol", .ofChars (List.replicate n '\n' ++ [')']))⟩
        ⟨.unexpectedChar, .error, "no", [⟨⟨n, n + 1⟩, "here", true⟩], [], [], none⟩ =
          .error .wordOverflow := by
  have hfeeds : byteLength (List.replicate n '\n') = n := byteLength_replicate n rfl
  have hsize : byteLength (List.replicate n '\n' ++ [')']) = n + 1 := by
    rw [byteLength_append, hfeeds]
    rfl
  have hword : byteLength (List.replicate n '\n' ++ [')']) < wordLimit := by omega
  refine ⟨hword, ?_, ?_⟩
  · have hslice : sliceBytes n (n + 1) (List.replicate n '\n' ++ [')']) = some [')'] :=
      sliceBytes_eq_some.2 ⟨List.replicate n '\n', [], rfl, hfeeds, hsize⟩
    rw [Span.slice, hslice, Option.getD_some]
  · have hcount : (List.replicate n '\n').count '\n' + 2 = wordLimit := by
      rw [List.count_replicate_self, hn]
    exact render_last_line (l := ⟨⟨n, n + 1⟩, "here", true⟩) hcount hfeeds.symm hword "m.sol"

/-- A line of more than twice as many bytes as there are 32-bit offsets is not in what is written for its
first character; and nothing is written for the last character of a source, of a 32-bit length, that has as
many lines as there are 32-bit numbers but for zero. -/
theorem lines_out_of_reach :
    (lineAround [] (')' :: List.replicate (2 * wordLimit) ' ' ++ ['\n']) =
        ')' :: List.replicate (2 * wordLimit) ' ' ∧
      ∃ text, render ⟨false, some ("m.sol", .ofChars (')' :: List.replicate (2 * wordLimit) ' ' ++ ['\n']))⟩
          ⟨.unexpectedChar, .error, "no", [⟨⟨0, 1⟩, "here", true⟩], [], [], none⟩ = .ok text ∧
        ¬∃ front back, text = front ++ String.ofList (')' :: List.replicate (2 * wordLimit) ' ') ++ back) ∧
    (byteLength (List.replicate (wordLimit - 2) '\n' ++ [')']) < wordLimit ∧
      Span.slice ⟨wordLimit - 2, wordLimit - 2 + 1⟩ (List.replicate (wordLimit - 2) '\n' ++ [')']) = [')'] ∧
      render ⟨false, some ("m.sol", .ofChars (List.replicate (wordLimit - 2) '\n' ++ [')']))⟩
        ⟨.unexpectedChar, .error, "no", [⟨⟨wordLimit - 2, wordLimit - 2 + 1⟩, "here", true⟩], [], [], none⟩ =
          .error .wordOverflow) := by
  have hlimit : wordLimit - 2 + 2 = wordLimit := by decide
  exact ⟨line_not_rendered hlimit (by decide), line_behind_feeds_not_rendered hlimit⟩

end Terminal

end SolSyntax
