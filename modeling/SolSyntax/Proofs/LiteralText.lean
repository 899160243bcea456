import Mathlib.Algebra.Group.Nat.Defs
import SolSyntax.Proofs.Pieces

/-!
# Literals read back

The text of an integer literal is scanned as an integer of its base and read back to it.  Strings and
characters are written between quotes, with escapes for what may not stand there, and read back too.

Principal results: `foldDigits_zero` — checks after every digit find out exactly whether the whole value
is too large; `readInt_marked`; `scan_intText`, `readInt_text`; `scan_quotedString`, `unescape_escaped`;
`scan_quotedChar`.
-/

namespace SolSyntax

/-! ## Digits -/

theorem digitValue_digitChar {d : Nat} (hd : d < 16) : digitValue d.digitChar = some d := by
  have all : ∀ d < 16, digitValue (Nat.digitChar d) = some d := by decide
  exact all d hd

theorem mem_toDigits {b n : Nat} (hb : 1 < b) {c : Char} (hc : c ∈ Nat.toDigits b n) :
    ∃ d < b, c = Nat.digitChar d := by
  induction n using Nat.strongRecOn with
  | _ n ih =>
    by_cases hn : n < b
    · rw [Nat.toDigits_of_lt_base hn] at hc
      exact ⟨n, hn, List.mem_singleton.1 hc⟩
    · rw [Nat.toDigits_of_base_le hb (Nat.not_lt.1 hn)] at hc
      rcases List.mem_append.1 hc with hc | hc
      · exact ih _ (Nat.div_lt_self (by omega) hb) hc
      · exact ⟨n % b, Nat.mod_lt _ (by omega), List.mem_singleton.1 hc⟩

namespace Radix

theorem one_lt_value (r : Radix) : 1 < r.value := by cases r <;> decide

theorem value_le (r : Radix) : r.value ≤ 16 := by cases r <;> decide

theorem digit?_digitChar (r : Radix) {d : Nat} (hd : d < r.value) : r.digit? d.digitChar = some d := by
  rw [digit?, digitValue_digitChar (Nat.lt_of_lt_of_le hd r.value_le)]
  simp [Option.filter, hd]

theorem isDigit_of_mem_toDigits (r : Radix) {n : Nat} {c : Char} (hc : c ∈ Nat.toDigits r.value n) :
    r.isDigit c = true := by
  obtain ⟨d, hd, rfl⟩ := mem_toDigits r.one_lt_value hc
  rw [isDigit, r.digit?_digitChar hd]
  rfl

theorem valueOf_append_digit (r : Radix) (cs : List Char) {d : Nat} (hd : d < r.value) :
    r.valueOf (cs ++ [d.digitChar]) = r.valueOf cs * r.value + d := by
  simp [valueOf, r.digit?_digitChar hd]

/-- Digits have the value that they are the digits of. -/
theorem valueOf_toDigits (r : Radix) (n : Nat) : r.valueOf (Nat.toDigits r.value n) = n := by
  have hb := r.one_lt_value
  induction n using Nat.strongRecOn with
  | _ n ih =>
    by_cases hn : n < r.value
    · rw [Nat.toDigits_of_lt_base hn, ← List.nil_append [n.digitChar], r.valueOf_append_digit [] hn]
      exact Nat.zero_mul _ ▸ Nat.zero_add n
    · rw [Nat.toDigits_of_base_le hb (Nat.not_lt.1 hn),
        r.valueOf_append_digit _ (Nat.mod_lt _ (by omega)), ih _ (Nat.div_lt_self (by omega) hb)]
      exact Nat.div_add_mod' n r.value

end Radix

/-! ## Checked arithmetic -/

/-- What the digits in a text make of the number before them. -/
def Radix.valueFrom (r : Radix) (n : Nat) (cs : List Char) : Nat :=
  cs.foldl (fun n c => match r.digit? c with | some d => n * r.value + d | none => n) n

theorem Radix.valueFrom_cons {r : Radix} {c : Char} {d : Nat} (hd : r.digit? c = some d) (n : Nat)
    (cs : List Char) : r.valueFrom n (c :: cs) = r.valueFrom (n * r.value + d) cs := by
  rw [valueFrom, List.foldl_cons, hd]
  rfl

theorem Radix.valueFrom_separator (r : Radix) (n : Nat) (cs : List Char) :
    r.valueFrom n ('_' :: cs) = r.valueFrom n cs := rfl

/-- More digits do not make a number smaller. -/
theorem Radix.le_valueFrom (r : Radix) (n : Nat) (cs : List Char) : n ≤ r.valueFrom n cs := by
  induction cs generalizing n with
  | nil => exact Nat.le_refl n
  | cons c cs ih =>
    cases hd : r.digit? c with
    | none =>
      rw [valueFrom, List.foldl_cons, hd]
      exact ih n
    | some d =>
      rw [valueFrom_cons hd]
      have hshift : n ≤ n * r.value := Nat.le_mul_of_pos_right n (Nat.zero_lt_of_lt r.one_lt_value)
      exact Nat.le_trans (Nat.le_add_right_of_le hshift) (ih _)

namespace Lexing

theorem intLimit_eq : intLimit = 2 ^ 128 := Nat.one_shiftLeft 128

/-- A number as the value of an integer literal, unless it is too large. -/
def fitting (n : Nat) : Option (BitVec 128) := if n < intLimit then some (BitVec.ofNat 128 n) else none

theorem fitting_toNat (n : BitVec 128) : fitting n.toNat = some n := by
  rw [fitting, if_pos (intLimit_eq ▸ n.isLt), BitVec.ofNat_toNat, BitVec.setWidth_eq]

theorem fitting_eq_none {n : Nat} : fitting n = none ↔ intLimit ≤ n := by
  rw [fitting]
  split <;> simp <;> omega

theorem toNat_of_fitting {n : Nat} {v : BitVec 128} (h : fitting n = some v) : v.toNat = n := by
  rw [fitting] at h
  split at h
  · rename_i hn
    cases h
    exact Nat.mod_eq_of_lt (intLimit_eq ▸ hn)
  · cases h

theorem checkedMul_eq (a b : BitVec 128) : checkedMul a b = fitting (a.toNat * b.toNat) := by
  rw [checkedMul, fitting, BitVec.umulOverflow, ← intLimit_eq]
  by_cases h : a.toNat * b.toNat < intLimit
  · rw [if_pos h, if_neg (by simpa using h), BitVec.ofNat_mul, BitVec.ofNat_toNat]
    simp
  · rw [if_neg h, if_pos (by simpa using h)]

theorem checkedAdd_eq (a b : BitVec 128) : checkedAdd a b = fitting (a.toNat + b.toNat) := by
  rw [checkedAdd, fitting, BitVec.uaddOverflow, ← intLimit_eq]
  by_cases h : a.toNat + b.toNat < intLimit
  · rw [if_pos h, if_neg (by simpa using h)]
    simp [BitVec.ofNat_add]
  · rw [if_neg h, if_pos (by simpa using h)]

/-- One more digit is taken up exactly if the number with it is not too large. -/
theorem checked_digit (radix : Radix) (n : BitVec 128) {d : Nat} (hd : d < radix.value) :
    ((checkedMul n (BitVec.ofNat 128 radix.value)).bind fun shifted =>
      checkedAdd shifted (BitVec.ofNat 128 d)) = fitting (n.toNat * radix.value + d) := by
  have hsmall : ∀ {k}, k ≤ 16 → (BitVec.ofNat 128 k).toNat = k := fun hk =>
    Nat.mod_eq_of_lt (Nat.lt_of_le_of_lt hk (by decide))
  have hvalue := radix.value_le
  rw [checkedMul_eq, hsmall hvalue]
  cases hm : fitting (n.toNat * radix.value) with
  | none =>
    have := fitting_eq_none.1 hm
    exact (fitting_eq_none.2 (by omega)).symm
  | some shifted =>
    rw [Option.bind_some, checkedAdd_eq, toNat_of_fitting hm, hsmall (by omega)]

/-- Checks after every digit find out exactly whether the whole value is too large. -/
theorem foldDigits_eq {radix : Radix} {cs : List Char} (hcs : ∀ c ∈ cs, isDigitOf radix c = true)
    (n : BitVec 128) : foldDigits radix n cs = fitting (radix.valueFrom n.toNat cs) := by
  induction cs generalizing n with
  | nil => exact (fitting_toNat n).symm
  | cons c cs ih =>
    obtain ⟨hc, hcs⟩ := List.forall_mem_cons.1 hcs
    rw [foldDigits]
    by_cases hsep : c = '_'
    · rw [if_pos hsep, ih hcs, hsep, Radix.valueFrom_separator]
    · rw [if_neg hsep]
      obtain ⟨d, hd⟩ : ∃ d, radix.digit? c = some d := by
        simpa [isDigitOf, hsep, Radix.isDigit, Option.isSome_iff_exists] using hc
      have hlt : d < radix.value := by
        simpa using (Option.filter_eq_some_iff.1 hd).2
      have hdigit := checked_digit radix n hlt
      simp only [hd, Option.bind_eq_bind, Option.bind_some]
      rw [Radix.valueFrom_cons hd, ← Option.bind_assoc, hdigit]
      cases hf : fitting (n.toNat * radix.value + d) with
      | none =>
        have := fitting_eq_none.1 hf
        have := radix.le_valueFrom (n.toNat * radix.value + d) cs
        exact (fitting_eq_none.2 (by omega)).symm
      | some m => rw [Option.bind_some, ih hcs, toNat_of_fitting hf]

theorem foldDigits_zero {radix : Radix} {cs : List Char} (hcs : ∀ c ∈ cs, isDigitOf radix c = true) :
    foldDigits radix 0 cs = fitting (radix.valueOf cs) := foldDigits_eq hcs 0

/-- What a marker, digits and a suffix stand for. -/
theorem readInt_marked {radix : Radix} {digits suffix : List Char}
    (hdigits : ∀ c ∈ digits, isDigitOf radix c = true) (hsuffix : Stops (isDigitOf radix) suffix) :
    readInt radix (radix.marker.toList ++ (digits ++ suffix)) =
      if suffix ≠ [] ∧ Suffix.ofText? (String.ofList suffix) = none then
        .error (.invalidNumber (String.ofList (digits ++ suffix)))
      else match fitting (radix.valueOf digits) with
        | some value => .ok ⟨value, radix, Suffix.ofText? (String.ofList suffix)⟩
        | none => .error (.intOverflow (String.ofList (radix.marker.toList ++ (digits ++ suffix)))) := by
  have hsplit : splitSuffix radix (digits ++ suffix) =
      if suffix ≠ [] ∧ Suffix.ofText? (String.ofList suffix) = none then
        .error (.invalidNumber (String.ofList (digits ++ suffix)))
      else .ok (digits, Suffix.ofText? (String.ofList suffix)) := by
    rw [splitSuffix, run_of_stops hdigits hsuffix]
    cases suffix with
    | nil => rfl
    | cons c cs =>
      dsimp only [List.isEmpty_cons]
      cases hs : Suffix.ofText? (String.ofList (c :: cs)) with
      | none => exact (if_pos ⟨List.cons_ne_nil c cs, rfl⟩).symm
      | some s => exact (if_neg fun h => by cases h.2).symm
  rw [readInt, ← String.length_toList, List.drop_left, hsplit]
  split
  · rfl
  · have hfold := foldDigits_zero hdigits
    generalize fitting (radix.valueOf digits) = value at hfold ⊢
    subst hfold
    rfl

end Lexing

/-! ## Integer literals -/

namespace IntLit

theorem toList_text (l : IntLit) : l.text.toList = l.radix.marker.toList ++
    (Nat.toDigits l.radix.value l.value.toNat ++ (suffixText l.suffix).toList) := by
  simp [text, List.append_assoc]

/-- A literal whose suffix is not taken for digits. -/
def IsReadable (l : IntLit) : Prop := l.radix = .hex → ∀ s, l.suffix = some s → s.isFloat = false

end IntLit

namespace Lexing

/-- A suffix is a letter and decimal digits. -/
theorem exists_suffixText (s : Suffix) : ∃ c cs, s.text.toList = c :: cs ∧
    (c = 'u' ∨ c = 'i' ∨ c = 'n' ∨ c = 'f' ∧ s.isFloat = true) ∧ ∀ d ∈ cs, isDigit d = true := by
  cases s <;> exact ⟨_, _, rfl, by decide, List.all_eq_true.1 rfl⟩

/-- A suffix is not taken for digits. -/
theorem stops_suffix {l : IntLit} (h : l.IsReadable) :
    Stops (isDigitOf l.radix) (suffixText l.suffix).toList := by
  cases hs : l.suffix with
  | none => exact fun c hc => by cases hc
  | some s =>
    obtain ⟨c, cs, htext, hc, -⟩ := exists_suffixText s
    rw [show suffixText (some s) = s.text from rfl, htext]
    rintro d ⟨⟩
    cases hr : l.radix with
    | hex =>
      have hinteger := h hr s hs
      rcases hc with rfl | rfl | rfl | ⟨-, hfloat⟩
      · decide
      · decide
      · decide
      · rw [hinteger] at hfloat
        cases hfloat
    | _ => rcases hc with rfl | rfl | rfl | ⟨rfl, -⟩ <;> decide

theorem readInt_text {l : IntLit} (h : l.IsReadable) : readInt l.radix l.text.toList = .ok l := by
  have hdigits : ∀ c ∈ Nat.toDigits l.radix.value l.value.toNat, isDigitOf l.radix c = true :=
    fun c hc => by simp [isDigitOf, l.radix.isDigit_of_mem_toDigits hc]
  have hsuffix : Suffix.ofText? (String.ofList (suffixText l.suffix).toList) = l.suffix := by
    rw [String.ofList_toList]
    cases l.suffix with
    | none => decide
    | some s => exact s.ofText?_text
  rw [l.toList_text, readInt_marked hdigits (stops_suffix h), Radix.valueOf_toDigits, hsuffix]
  have hgood : ¬((suffixText l.suffix).toList ≠ [] ∧ l.suffix = none) := by
    rintro ⟨hne, hnone⟩
    rw [hnone] at hne
    exact hne rfl
  rw [if_neg hgood, fitting_toNat]

/-- What begins with a decimal digit is a number. -/
theorem scan_digit {d : Nat} (hd : d < 10) (cs : List Char) :
    scan d.digitChar cs = scanNumber d.digitChar cs := by
  match d, hd with
  | 0, _ | 1, _ | 2, _ | 3, _ | 4, _ | 5, _ | 6, _ | 7, _ | 8, _ | 9, _ => rfl

theorem exists_digitChar {c : Char} (h : isDigit c = true) : ∃ d < 10, c = Nat.digitChar d := by
  simp only [isDigit, Bool.and_eq_true, decide_eq_true_eq] at h
  have hlow : 48 ≤ c.toNat := h.1
  have hhigh : c.toNat ≤ 57 := h.2
  have all : ∀ d < 10, Char.ofNat (48 + d) = Nat.digitChar d := by decide
  refine ⟨c.toNat - 48, by omega, ?_⟩
  rw [← all _ (by omega), Nat.add_sub_cancel' hlow, Char.ofNat_toNat]

theorem isWordChar_digitChar {d : Nat} (hd : d < 16) : isWordChar d.digitChar = true := by
  have all : ∀ d < 16, isWordChar (Nat.digitChar d) = true := by decide
  exact all d hd

theorem isWordChar_of_mem_toDigits (r : Radix) {n : Nat} {c : Char}
    (hc : c ∈ Nat.toDigits r.value n) : isWordChar c = true := by
  obtain ⟨d, hd, rfl⟩ := mem_toDigits r.one_lt_value hc
  exact isWordChar_digitChar (Nat.lt_of_lt_of_le hd r.value_le)

theorem isWordChar_of_mem_suffix (s : Option Suffix) : ∀ c ∈ (suffixText s).toList, isWordChar c = true := by
  cases s with
  | none => exact fun c hc => by cases hc
  | some s => cases s <;> exact List.all_eq_true.1 rfl

/-- A number is decimal unless a marker follows its first digit. -/
theorem radixOf_of_head (first : Char) {word : List Char}
    (h : ∀ c ∈ word.head?, c ∉ ['x', 'o', 'b']) : radixOf first word = .decimal := by
  unfold radixOf
  split
  · split
    · exact (h _ rfl (by simp)).elim
    · exact (h _ rfl (by simp)).elim
    · exact (h _ rfl (by simp)).elim
    · rfl
  · rfl

theorem isWordChar_tail {l : IntLit} {d : Char} {ds : List Char}
    (hdigits : Nat.toDigits l.radix.value l.value.toNat = d :: ds) :
    ∀ c ∈ ds ++ (suffixText l.suffix).toList, isWordChar c = true := by
  intro c hc
  rcases List.mem_append.1 hc with hc | hc
  · exact isWordChar_of_mem_toDigits l.radix (hdigits ▸ List.mem_cons_of_mem d hc)
  · exact isWordChar_of_mem_suffix l.suffix c hc

/-- Digits without a marker. -/
theorem scan_decimalText {l : IntLit} (hr : l.radix = .decimal) : ∃ first more,
    l.text.toList = first :: more ∧ scan first more = .lexeme (.int .decimal) (first :: more) [] := by
  obtain ⟨d, ds, hdigits⟩ := List.exists_cons_of_ne_nil
    (Nat.toDigits_ne_nil (n := l.value.toNat) (b := l.radix.value))
  have hmem : ∀ c ∈ d :: ds, ∃ k < 10, c = Nat.digitChar k := by
    intro c hc
    have := mem_toDigits l.radix.one_lt_value (hdigits ▸ hc)
    rwa [hr] at this
  have hhead : ∀ c ∈ (ds ++ (suffixText l.suffix).toList).head?, c ∉ ['x', 'o', 'b'] := by
    intro c hc
    cases ds with
    | nil =>
      cases hs : l.suffix with
      | none =>
        rw [hs] at hc
        cases hc
      | some s =>
        obtain ⟨first, more, htext, hfirst, -⟩ := exists_suffixText s
        rw [hs, show suffixText (some s) = s.text from rfl, htext] at hc
        cases hc
        rcases hfirst with rfl | rfl | rfl | ⟨rfl, -⟩ <;> decide
    | cons e ds =>
      cases hc
      obtain ⟨k, hk, rfl⟩ := hmem c (by simp)
      have all : ∀ k < 10, Nat.digitChar k ∉ ['x', 'o', 'b'] := by decide
      exact all k hk
  obtain ⟨k, hk, rfl⟩ := hmem d List.mem_cons_self
  refine ⟨k.digitChar, ds ++ (suffixText l.suffix).toList, ?_, ?_⟩
  · rw [l.toList_text, hdigits, hr]
    rfl
  · have hscan := scanNumber_word k.digitChar (isWordChar_tail hdigits) (v := []) fun c hc => by cases hc
    rwa [List.append_nil, radixOf_of_head _ hhead, ← scan_digit hk] at hscan

/-- A marker and a digit of its base tell the base. -/
theorem exists_marker {radix : Radix} (h : radix ≠ .decimal) : ∃ m, radix.marker.toList = ['0', m] ∧
    isWordChar m = true ∧ ∀ d more, radix.isDigit d = true → radixOf '0' (m :: d :: more) = radix := by
  cases radix with
  | decimal => exact (h rfl).elim
  | binary => exact ⟨'b', rfl, rfl, fun d more hd => if_pos hd⟩
  | octal => exact ⟨'o', rfl, rfl, fun d more hd => if_pos hd⟩
  | hex => exact ⟨'x', rfl, rfl, fun d more hd => if_pos hd⟩

/-- The text of an integer literal is an integer of its base. -/
theorem scan_intText (l : IntLit) : ∃ first more, l.text.toList = first :: more ∧
    scan first more = .lexeme (.int l.radix) (first :: more) [] := by
  by_cases hr : l.radix = .decimal
  · rw [hr]
    exact scan_decimalText hr
  obtain ⟨m, hmarker, hm, hradix⟩ := exists_marker hr
  obtain ⟨d, ds, hdigits⟩ := List.exists_cons_of_ne_nil
    (Nat.toDigits_ne_nil (n := l.value.toNat) (b := l.radix.value))
  have hmem : d ∈ Nat.toDigits l.radix.value l.value.toNat := hdigits ▸ List.mem_cons_self
  refine ⟨'0', m :: d :: (ds ++ (suffixText l.suffix).toList), ?_, ?_⟩
  · rw [l.toList_text, hmarker, hdigits]
    rfl
  · have hword : ∀ c ∈ m :: d :: (ds ++ (suffixText l.suffix).toList), isWordChar c = true :=
      List.forall_mem_cons.2 ⟨hm, List.forall_mem_cons.2
        ⟨isWordChar_of_mem_toDigits l.radix hmem, isWordChar_tail hdigits⟩⟩
    have hscan := scanNumber_word '0' hword (v := []) fun c hc => by cases hc
    rwa [List.append_nil, hradix d _ (l.radix.isDigit_of_mem_toDigits hmem)] at hscan

/-! ## Strings and characters -/

/-- How a character is written between quotes. -/
def escaped (quote c : Char) : List Char :=
  if c = '\n' then ['\\', 'n']
  else if c = '\r' then ['\\', 'r']
  else if c = '\t' then ['\\', 't']
  else if c = '\x00' then ['\\', '0']
  else if c = '\\' then ['\\', '\\']
  else if c = quote then ['\\', quote]
  else [c]

/-- A text between quotes. -/
def quoted (quote : Char) (text : List Char) : List Char :=
  quote :: (text.flatMap (escaped quote) ++ [quote])

/-- A character stands for itself, or a backslash comes before what stands for it. -/
theorem escaped_cases {quote : Char} (hquote : quote = '\x22' ∨ quote = '\x27') (c : Char) :
    (escaped quote c = [c] ∧ c ≠ '\n' ∧ c ≠ '\r' ∧ c ≠ '\\' ∧ c ≠ quote) ∨
      ∃ d, escaped quote c = ['\\', d] ∧ d ≠ '\n' ∧ d ≠ 'u' ∧ resolveEscape d = c := by
  unfold escaped
  split
  · rename_i h
    exact .inr ⟨_, rfl, by decide, by decide, h.symm⟩
  split
  · rename_i h
    exact .inr ⟨_, rfl, by decide, by decide, h.symm⟩
  split
  · rename_i h
    exact .inr ⟨_, rfl, by decide, by decide, h.symm⟩
  split
  · rename_i h
    exact .inr ⟨_, rfl, by decide, by decide, h.symm⟩
  split
  · rename_i h
    exact .inr ⟨_, rfl, by decide, by decide, h.symm⟩
  split
  · rename_i h
    refine .inr ⟨_, rfl, ?_⟩
    rw [h]
    rcases hquote with rfl | rfl <;> decide
  · rename_i hfeed hreturn _ _ hbackslash hq
    exact .inl ⟨rfl, hfeed, hreturn, hbackslash, hq⟩

/-! ### Strings -/

theorem stringBody_plain {c : Char} (hc : isPlainInString c = true) (acc cs : List Char) :
    stringBody acc (c :: cs) = stringBody (c :: acc) cs := by
  have hbackslash : c ≠ '\\' := by rintro rfl; exact absurd hc (by decide)
  rw [stringBody, if_pos hc]
  all_goals simp [hbackslash]

/-- The quote at the end is the first that is no part of the text. -/
theorem stringBody_escaped (acc text v : List Char) :
    stringBody acc (text.flatMap (escaped '\x22') ++ '\x22' :: v) =
      (acc.reverse ++ text.flatMap (escaped '\x22'), '\x22' :: v) := by
  induction text generalizing acc with
  | nil =>
    rw [List.flatMap_nil, List.append_nil, List.nil_append, stringBody]
    · rfl
    all_goals simp
  | cons c text ih =>
    rw [List.flatMap_cons]
    obtain ⟨he, hfeed, hreturn, hbackslash, hquote⟩ | ⟨d, he, hd, -, -⟩ := escaped_cases (.inl rfl) c
    · have hplain : isPlainInString c = true := by
        simp [isPlainInString, hfeed, hreturn, hbackslash, hquote]
      rw [he, List.append_assoc, List.cons_append, List.nil_append, stringBody_plain hplain, ih]
      simp
    · rw [he, List.append_assoc, List.cons_append, List.cons_append, List.nil_append, stringBody,
        if_neg hd, ih]
      simp

theorem scan_quotedString (text v : List Char) :
    scan '\x22' (text.flatMap (escaped '\x22') ++ '\x22' :: v) =
      .lexeme .string (quoted '\x22' text) v := by
  show scanString _ = _
  rw [scanString, stringBody_escaped]
  rfl

theorem unescapeInto_plain {c : Char} (hc : c ≠ '\\') (acc cs : List Char) :
    unescapeInto acc (c :: cs) = unescapeInto (c :: acc) cs := by
  rw [unescapeInto]
  all_goals simp [hc]

theorem unescapeInto_escape {d : Char} (hd : d ≠ 'u') (acc cs : List Char) :
    unescapeInto acc ('\\' :: d :: cs) = unescapeInto (resolveEscape d :: acc) cs := by
  rw [unescapeInto]
  all_goals simp [hd]

/-- Escapes are resolved to what was escaped. -/
theorem unescape_escaped {quote : Char} (hquote : quote = '\x22' ∨ quote = '\x27') (text : List Char) :
    unescape (text.flatMap (escaped quote)) = .ok text := by
  have into (acc : List Char) :
      unescapeInto acc (text.flatMap (escaped quote)) = .ok (acc.reverse ++ text) := by
    induction text generalizing acc with
    | nil => rw [List.flatMap_nil, unescapeInto, List.append_nil]
    | cons c text ih =>
      rw [List.flatMap_cons]
      obtain ⟨he, -, -, hbackslash, -⟩ | ⟨d, he, -, hd, hc⟩ := escaped_cases hquote c
      · rw [he, List.cons_append, List.nil_append, unescapeInto_plain hbackslash, ih]
        simp
      · rw [he, List.cons_append, List.cons_append, List.nil_append, unescapeInto_escape hd, ih, hc]
        simp
  exact into []

theorem unquoted_quoted (quote : Char) (text : List Char) :
    unquoted (quoted quote text) = text.flatMap (escaped quote) := by
  simp [unquoted, quoted]

/-! ### Characters -/

theorem scan_quotedChar (c : Char) (v : List Char) :
    scan '\x27' (escaped '\x27' c ++ '\x27' :: v) = .lexeme .char (quoted '\x27' [c]) v := by
  show scanQuote _ = _
  rw [quoted, List.flatMap_singleton]
  obtain ⟨he, hfeed, hreturn, hbackslash, hquote⟩ | ⟨d, he, hd, -, -⟩ := escaped_cases (.inr rfl) c
  · have hplain : isPlainInChar c = true := by
      simp [isPlainInChar, hfeed, hreturn, hbackslash, hquote]
    simp [he, scanQuote, hplain, hbackslash]
  · simp [he, scanQuote, hd]

theorem unescapeChar_escaped (c : Char) :
    unescapeChar (unquoted (quoted '\x27' [c])) = .ok c := by
  rw [unescapeChar, unquoted_quoted, unescape_escaped (.inr rfl)]

end Lexing

end SolSyntax
