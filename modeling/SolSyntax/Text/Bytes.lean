/-!
# Cutting text at byte offsets

Offsets into a source text count the bytes of its UTF-8 form, while the text itself is handled as a
list of characters.  A cut is possible only between two characters.

Principal results: `splitBytes_eq_some` — a cut succeeds exactly when the two parts make up the
text and the first has the asked number of bytes; `sliceBytes_eq_some` — so does cutting out a part.
-/

namespace SolSyntax

/-- The number of bytes of a text. -/
def byteLength (cs : List Char) : Nat := cs.foldl (fun n c => n + c.utf8Size) 0

theorem foldl_utf8Size (n : Nat) (cs : List Char) :
    cs.foldl (fun n c => n + c.utf8Size) n = n + byteLength cs := by
  unfold byteLength
  induction cs generalizing n with
  | nil => simp
  | cons c cs ih => rw [List.foldl_cons, List.foldl_cons, ih, ih (0 + c.utf8Size)]; omega

@[simp] theorem byteLength_nil : byteLength [] = 0 := rfl

@[simp] theorem byteLength_cons (c : Char) (cs : List Char) :
    byteLength (c :: cs) = c.utf8Size + byteLength cs := by
  rw [byteLength, List.foldl_cons, foldl_utf8Size]; omega

@[simp] theorem byteLength_append (as bs : List Char) :
    byteLength (as ++ bs) = byteLength as + byteLength bs := by
  induction as with
  | nil => simp
  | cons a as ih => simp [ih]; omega

@[simp] theorem byteLength_reverse (cs : List Char) : byteLength cs.reverse = byteLength cs := by
  induction cs with
  | nil => rfl
  | cons c cs ih => simp [ih]; omega

/-- Takes `n` bytes off the front of a text; `acc` holds, reversed, what was taken before. -/
def splitBytesInto (acc : List Char) : Nat → List Char → Option (List Char × List Char)
  | 0, cs => some (acc.reverse, cs)
  | _ + 1, [] => none
  | n + 1, c :: cs =>
    if c.utf8Size ≤ n + 1 then splitBytesInto (c :: acc) (n + 1 - c.utf8Size) cs else none

/-- The first `n` bytes of a text and the rest, or `none` if the text is too short or a character
straddles the cut. -/
def splitBytes (n : Nat) (cs : List Char) : Option (List Char × List Char) :=
  splitBytesInto [] n cs

theorem splitBytesInto_eq_some {acc : List Char} {n : Nat} {cs as bs : List Char} :
    splitBytesInto acc n cs = some (as, bs) ↔
      ∃ ts, as = acc.reverse ++ ts ∧ cs = ts ++ bs ∧ byteLength ts = n := by
  induction cs generalizing acc n with
  | nil =>
    cases n with
    | zero =>
      simp only [splitBytesInto, Option.some.injEq, Prod.mk.injEq, List.nil_eq,
        List.append_eq_nil_iff]
      constructor
      · rintro ⟨rfl, rfl⟩
        exact ⟨[], by simp⟩
      · rintro ⟨ts, rfl, ⟨rfl, rfl⟩, _⟩
        simp
    | succ n =>
      simp only [splitBytesInto, reduceCtorEq, false_iff, not_exists, not_and]
      intro ts _ hts
      obtain ⟨rfl, _⟩ := List.append_eq_nil_iff.1 hts.symm
      simp
  | cons c cs ih =>
    have hc : 0 < c.utf8Size := Char.utf8Size_pos c
    cases n with
    | zero =>
      simp only [splitBytesInto, Option.some.injEq, Prod.mk.injEq]
      constructor
      · rintro ⟨rfl, rfl⟩
        exact ⟨[], by simp⟩
      · rintro ⟨ts, rfl, h, hn⟩
        cases ts with
        | nil => simpa using h
        | cons t ts => simp only [byteLength_cons] at hn; have := Char.utf8Size_pos t; omega
    | succ n =>
      simp only [splitBytesInto]
      split
      · rw [ih]
        constructor
        · rintro ⟨ts, rfl, rfl, hn⟩
          exact ⟨c :: ts, by simp, by simp, by simp only [byteLength_cons]; omega⟩
        · rintro ⟨ts, rfl, h, hn⟩
          cases ts with
          | nil => simp at hn
          | cons t ts =>
            simp only [List.cons_append, List.cons.injEq] at h
            obtain ⟨rfl, rfl⟩ := h
            exact ⟨ts, by simp, rfl, by simp only [byteLength_cons] at hn; omega⟩
      · simp only [reduceCtorEq, false_iff, not_exists, not_and]
        intro ts _ h
        cases ts with
        | nil => simp
        | cons t ts =>
          simp only [List.cons_append, List.cons.injEq] at h
          obtain ⟨rfl, _⟩ := h
          simp only [byteLength_cons]
          omega

theorem splitBytes_eq_some {n : Nat} {cs as bs : List Char} :
    splitBytes n cs = some (as, bs) ↔ cs = as ++ bs ∧ byteLength as = n := by
  simp [splitBytes, splitBytesInto_eq_some]

/-- The part of a text between two byte offsets, or `none` if they are out of order, out of range
or inside a character. -/
def sliceBytes (start stop : Nat) (cs : List Char) : Option (List Char) :=
  if start ≤ stop then
    match splitBytes start cs with
    | none => none
    | some (_, rest) => (splitBytes (stop - start) rest).map Prod.fst
  else none

theorem sliceBytes_eq_some {start stop : Nat} {cs text : List Char} :
    sliceBytes start stop cs = some text ↔
      ∃ before after, cs = before ++ (text ++ after) ∧ byteLength before = start ∧
        byteLength (before ++ text) = stop := by
  unfold sliceBytes
  constructor
  · intro h
    split at h
    · rename_i hle
      split at h
      · cases h
      · rename_i before rest hbefore
        obtain ⟨⟨text', after⟩, htext, rfl⟩ := Option.map_eq_some_iff.1 h
        obtain ⟨rfl, rfl⟩ := splitBytes_eq_some.1 hbefore
        obtain ⟨rfl, hlength⟩ := splitBytes_eq_some.1 htext
        exact ⟨before, after, rfl, rfl, by rw [byteLength_append, hlength]; omega⟩
    · cases h
  · rintro ⟨before, after, rfl, rfl, rfl⟩
    have hbefore : splitBytes (byteLength before) (before ++ (text ++ after)) =
        some (before, text ++ after) := splitBytes_eq_some.2 ⟨rfl, rfl⟩
    have htext : splitBytes (byteLength (before ++ text) - byteLength before) (text ++ after) =
        some (text, after) := splitBytes_eq_some.2 ⟨rfl, by rw [byteLength_append]; omega⟩
    rw [if_pos (by rw [byteLength_append]; omega), hbefore]
    simp only [htext, Option.map_some]

theorem length_le_byteLength (cs : List Char) : cs.length ≤ byteLength cs := by
  induction cs with
  | nil => exact Nat.le_refl 0
  | cons c cs ih =>
    have := Char.utf8Size_pos c
    rw [List.length_cons, byteLength_cons]
    omega

/-- Where every character takes one byte, bytes are counted by characters. -/
theorem byteLength_eq_length {cs : List Char} (h : ∀ c ∈ cs, c.utf8Size = 1) : byteLength cs = cs.length := by
  induction cs with
  | nil => rfl
  | cons c cs ih =>
    obtain ⟨hc, hcs⟩ := List.forall_mem_cons.1 h
    rw [byteLength_cons, List.length_cons, ih hcs, hc, Nat.add_comm]

theorem byteLength_replicate (n : Nat) {c : Char} (hc : c.utf8Size = 1) :
    byteLength (List.replicate n c) = n := by
  rw [byteLength_eq_length fun d hd => List.eq_of_mem_replicate hd ▸ hc, List.length_replicate]

theorem utf8ByteSize_ofList (cs : List Char) : (String.ofList cs).utf8ByteSize = byteLength cs := by
  induction cs with
  | nil => rfl
  | cons c cs ih =>
    rw [String.ofList_cons, String.utf8ByteSize_append, String.utf8ByteSize_singleton, ih, byteLength_cons]

theorem byteLength_toList (s : String) : byteLength s.toList = s.utf8ByteSize := by
  rw [← utf8ByteSize_ofList, String.ofList_toList]

/-- The text without the characters at its end that satisfy `p`. -/
def trimEnd (p : Char → Bool) (cs : List Char) : List Char :=
  (cs.reverse.dropWhile p).reverse

/-- What is left out at the end of a text can as well be left out before. -/
theorem trimEnd_append {p : Char → Bool} {end' : List Char} (h : ∀ c ∈ end', p c = true)
    (text : List Char) : trimEnd p (text ++ end') = trimEnd p text := by
  rw [trimEnd, List.reverse_append, List.dropWhile_append_of_pos fun c hc => h c (List.mem_reverse.1 hc)]
  rfl

/-- All that is left out satisfies `p`. -/
theorem exists_trimEnd_append (p : Char → Bool) (cs : List Char) :
    ∃ end', cs = trimEnd p cs ++ end' ∧ ∀ c ∈ end', p c = true := by
  refine ⟨(cs.reverse.takeWhile p).reverse, ?_, fun c hc => ?_⟩
  · rw [trimEnd, ← List.reverse_append, List.takeWhile_append_dropWhile, List.reverse_reverse]
  · exact List.all_eq_true.1 List.all_takeWhile c (List.mem_reverse.1 hc)

/-- What stands before a character that stays is kept with it. -/
theorem trimEnd_of_stays {p : Char → Bool} {c : Char} (h : p c = false) (before after : List Char) :
    trimEnd p (before ++ c :: after) = before ++ c :: trimEnd p after := by
  have hfront : (c :: before.reverse).dropWhile p = c :: before.reverse :=
    List.dropWhile_cons_of_neg (by simp [h])
  rw [trimEnd, List.reverse_append, List.reverse_cons, List.append_assoc, List.singleton_append,
    List.dropWhile_append, hfront, trimEnd]
  split <;> simp_all

end SolSyntax
