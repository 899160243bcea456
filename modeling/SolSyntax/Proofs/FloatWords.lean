import SolSyntax.Proofs.IntegerWords
import SolSyntax.Proofs.ShortestDigits

/-!
# Floats read back

A float is digits, a point, digits, an exponent or none, and a suffix or none.  Its parts stand for a
decimal, which is read as the nearest value.  The text of a finite value has such parts and stands for the
shortest digits of the value, unless these are one digit and the value is written with an exponent: then no
point is written.

Principal results: `FloatParts.scan_eq`, `FloatParts.readFloat_eq`; `finiteText_pointed`, `finiteText_bare`.
-/

namespace SolSyntax

open Lexing NumberPattern

/-- The decimal that the parts of a float stand for. -/
def decimalOf (whole fraction exp : List Char) : Decimal.Scaled :=
  ⟨Radix.decimal.valueOf (whole ++ fraction), exponentValue exp - fraction.countP isDigit⟩

/-- The text of a float. -/
def floatWord (whole fraction exp : List Char) (s : Option Suffix) : List Char :=
  whole ++ '.' :: (fraction ++ (exp ++ (suffixText s).toList))

/-- The parts of a float, suffix apart. -/
structure FloatParts (whole fraction exp : List Char) : Prop where
  whole : IsDigits whole
  fraction : IsDigits fraction
  exp : NumberPattern.IsExponent exp

/-! ## Parts of a float -/

theorem NumberPattern.IsDigits.all {cs : List Char} (h : IsDigits cs) :
    ∀ c ∈ cs, isDigitOrSeparator c = true := by
  obtain ⟨d, ds, rfl, hd, hds⟩ := h
  exact List.forall_mem_cons.2 ⟨by rw [isDigitOrSeparator, hd, Bool.true_or], hds⟩

/-- A suffix begins neither like an exponent nor like more digits. -/
theorem head_suffixText (s : Option Suffix) :
    ∀ c ∈ (suffixText s).toList.head?, c ∈ ['u', 'i', 'n', 'f'] := by
  cases s with
  | none => exact fun c hc => by cases hc
  | some s =>
    obtain ⟨c, cs, htext, hc, -⟩ := exists_suffixText s
    rw [show suffixText (some s) = s.text from rfl, htext]
    rintro d ⟨⟩
    rcases hc with rfl | rfl | rfl | ⟨rfl, -⟩ <;> decide

theorem stops_suffixText {p : Char → Bool} (hp : ['u', 'i', 'n', 'f'].all (!p ·) = true)
    (s : Option Suffix) : Stops p (suffixText s).toList := fun c hc => by
  simpa using List.all_eq_true.1 hp c (head_suffixText s c hc)

namespace FloatParts

variable {whole fraction exp : List Char} (h : FloatParts whole fraction exp) (s : Option Suffix)
include h

theorem stops_fraction : Stops isDigitOrSeparator (exp ++ (suffixText s).toList) := by
  rcases h.exp with rfl | ⟨e, sign, digits, rfl, he, -⟩
  · exact stops_suffixText (by decide) s
  · rintro c ⟨⟩
    rcases he with rfl | rfl <;> decide

theorem exponent_eq : exponent (exp ++ (suffixText s).toList) = (exp, (suffixText s).toList) := by
  rcases h.exp with rfl | ⟨e, sign, digits, rfl, he, hsign, hne, hdigits⟩
  · rw [List.nil_append]
    cases htext : (suffixText s).toList with
    | nil => rfl
    | cons c cs =>
      have hc := head_suffixText s c (by rw [htext]; rfl)
      have he : ¬(c = 'e' ∨ c = 'E') := by rintro (rfl | rfl) <;> exact absurd hc (by decide)
      simp [exponent, he]
  · refine Lexing.IsExponent.exponent_eq ⟨⟨e, sign, digits, rfl, he, ?_, hne, hdigits⟩, ?_⟩
    · simpa using hsign
    · exact stops_suffixText (by decide) s

/-- The whole text is scanned as one float. -/
theorem scan_eq : ∃ first more, floatWord whole fraction exp s = first :: more ∧
    scan first more = .lexeme .float (floatWord whole fraction exp s) [] := by
  obtain ⟨first, digits, rfl, hfirst, hwhole⟩ := h.whole
  obtain ⟨d, places, rfl, hd, hfraction⟩ := h.fraction
  refine ⟨first, _, rfl, ?_⟩
  have hscan := scanNumber_float (v := []) first hwhole hd hfraction
    (by rw [List.append_nil]; exact h.stops_fraction s) (by rw [List.append_nil]; exact h.exponent_eq s)
    (isWordChar_of_mem_suffix s) (fun c hc => by cases hc)
  rw [List.append_nil] at hscan
  rw [scan_eq_scanNumber hfirst]
  exact hscan

/-- The parts are told apart again. -/
theorem readFloat_eq (hs : ∀ t ∈ s, t.isFloat = true) : readFloat (floatWord whole fraction exp s) =
    .ok ⟨Decimal.nearest (decimalOf whole fraction exp).digits (decimalOf whole fraction exp).exponent,
      s⟩ := by
  have hwhole : run isDigitOrSeparator (floatWord whole fraction exp s) =
      (whole, '.' :: (fraction ++ (exp ++ (suffixText s).toList))) :=
    run_of_stops h.whole.all (by rintro c ⟨⟩; decide)
  have hfraction := run_of_stops h.fraction.all (h.stops_fraction s)
  simp only [readFloat, hwhole, List.drop_one, List.tail_cons, hfraction, h.exponent_eq s]
  cases s with
  | none => rfl
  | some t =>
    have hsuffix : (Suffix.ofText? (String.ofList t.text.toList)).filter Suffix.isFloat = some t := by
      rw [String.ofList_toList, Suffix.ofText?_text, Option.filter_some, if_pos (hs t rfl)]
    obtain ⟨c, cs, htext, -⟩ := exists_suffixText t
    have hne : (suffixText (some t)).toList.isEmpty = false := by
      rw [show suffixText (some t) = t.text from rfl, htext]
      rfl
    rw [hne, show suffixText (some t) = t.text from rfl, hsuffix]
    rfl

end FloatParts

/-! ## Digits -/

theorem isDigit_of_mem_decimal {n : ℕ} {c : Char} (hc : c ∈ Nat.toDigits 10 n) : isDigit c = true := by
  have all : ∀ d < 10, isDigit (Nat.digitChar d) = true := by decide
  obtain ⟨d, hd, rfl⟩ := mem_toDigits (by norm_num) hc
  exact all d hd

theorem isDigit_of_mem_zeros {k : ℕ} {c : Char} (hc : c ∈ List.replicate k '0') : isDigit c = true := by
  rw [List.eq_of_mem_replicate hc]
  decide

theorem NumberPattern.IsDigits.of_digits {cs : List Char} (hne : cs ≠ [])
    (h : ∀ c ∈ cs, isDigit c = true) : IsDigits cs := by
  obtain ⟨d, ds, rfl⟩ := List.exists_cons_of_ne_nil hne
  obtain ⟨hd, hds⟩ := List.forall_mem_cons.1 h
  exact ⟨d, ds, rfl, hd, fun c hc => by rw [isDigitOrSeparator, hds c hc, Bool.true_or]⟩

theorem Radix.valueFrom_append (r : Radix) (n : ℕ) (as bs : List Char) :
    r.valueFrom n (as ++ bs) = r.valueFrom (r.valueFrom n as) bs := List.foldl_append

/-- Zeros behind the digits. -/
theorem Radix.valueFrom_zeros (n k : ℕ) :
    Radix.decimal.valueFrom n (List.replicate k '0') = n * 10 ^ k := by
  induction k generalizing n with
  | zero => exact (Nat.mul_one n).symm
  | succ k ih =>
    rw [List.replicate_succ, valueFrom_cons (d := 0) rfl, ih, pow_succ']
    exact Nat.mul_assoc n 10 _

/-- Zeros before the digits. -/
theorem Radix.valueOf_zeros_append (k : ℕ) (cs : List Char) :
    Radix.decimal.valueOf (List.replicate k '0' ++ cs) = Radix.decimal.valueOf cs := by
  show Radix.decimal.valueFrom 0 _ = Radix.decimal.valueFrom 0 _
  rw [valueFrom_append, valueFrom_zeros, Nat.zero_mul]

theorem Radix.valueOf_append_zeros (k : ℕ) (cs : List Char) :
    Radix.decimal.valueOf (cs ++ List.replicate k '0') = Radix.decimal.valueOf cs * 10 ^ k := by
  show Radix.decimal.valueFrom 0 _ = Radix.decimal.valueFrom 0 _ * _
  rw [valueFrom_append, valueFrom_zeros]

theorem Radix.valueOf_decimal (n : ℕ) : Radix.decimal.valueOf (Nat.toDigits 10 n) = n :=
  Radix.decimal.valueOf_toDigits n

theorem toList_toString_ofNat (n : ℕ) : (toString (Int.ofNat n)).toList = Nat.toDigits 10 n :=
  String.toList_ofList

theorem toList_toString_negSucc (n : ℕ) :
    (toString (Int.negSucc n)).toList = '-' :: Nat.toDigits 10 (n + 1) := by
  show ("-" ++ Nat.repr (n + 1)).toList = _
  simp [Nat.repr]

/-- A whole number is read as an exponent. -/
theorem exponent_toString (k : ℤ) : NumberPattern.IsExponent ('e' :: (toString k).toList) ∧
    exponentValue ('e' :: (toString k).toList) = k := by
  cases k with
  | ofNat n =>
    obtain ⟨d, ds, hdigits⟩ := List.exists_cons_of_ne_nil (Nat.toDigits_ne_nil (n := n) (b := 10))
    rw [toList_toString_ofNat]
    refine ⟨.inr ⟨'e', [], _, rfl, .inl rfl, by simp, Nat.toDigits_ne_nil, fun c hc =>
      isDigit_of_mem_decimal hc⟩, ?_⟩
    have hminus : d ≠ '-' := by
      have := isDigit_of_mem_decimal (hdigits ▸ List.mem_cons_self : d ∈ Nat.toDigits 10 n)
      rintro rfl
      exact absurd this (by decide)
    have hvalue : exponentValue ('e' :: d :: ds) = Radix.decimal.valueOf ('e' :: d :: ds) := by
      rw [exponentValue]
      simp [hminus]
    rw [hdigits, hvalue, ← hdigits]
    exact congrArg Int.ofNat (Radix.valueOf_decimal n)
  | negSucc n =>
    rw [toList_toString_negSucc]
    refine ⟨.inr ⟨'e', ['-'], _, rfl, .inl rfl, by simp, Nat.toDigits_ne_nil, fun c hc =>
      isDigit_of_mem_decimal hc⟩, ?_⟩
    rw [exponentValue, Radix.valueOf_decimal]
    rfl

/-! ## Layout -/

/-- A text that is a float without a suffix and stands for a number. -/
def Pointed (text : List Char) (v : ℚ) : Prop :=
  ∃ whole fraction exp, text = whole ++ '.' :: (fraction ++ exp) ∧ FloatParts whole fraction exp ∧
    (decimalOf whole fraction exp).value = v

section Digits

/-- Digits on both sides of the point. -/
theorem pointed_parts {whole fraction exp : List Char} (hwhole : whole ≠ [])
    (hdigits : ∀ c ∈ whole ++ fraction, isDigit c = true) (hfraction : fraction ≠ [])
    (hexp : NumberPattern.IsExponent exp) :
    Pointed (whole ++ '.' :: (fraction ++ exp)) (Decimal.Scaled.value
      ⟨Radix.decimal.valueOf (whole ++ fraction), exponentValue exp - fraction.length⟩) := by
  have hplaces : ∀ c ∈ fraction, isDigit c = true := fun c hc => hdigits c (List.mem_append_right _ hc)
  refine ⟨whole, fraction, exp, rfl, ⟨.of_digits hwhole fun c hc => hdigits c (List.mem_append_left _ hc),
    .of_digits hfraction hplaces, hexp⟩, ?_⟩
  rw [decimalOf, List.countP_eq_length.2 hplaces]

variable {ds : List Char} (hne : ds ≠ []) (hdigits : ∀ c ∈ ds, isDigit c = true)
include hdigits

include hne in
/-- All digits and some zeros behind the point. -/
theorem pointed_below (k : ℕ) : Pointed ('0' :: '.' :: (List.replicate k '0' ++ ds))
    (Decimal.Scaled.value ⟨Radix.decimal.valueOf ds, -(k + ds.length)⟩) := by
  have hall : ['0'] ++ (List.replicate k '0' ++ ds) = List.replicate (k + 1) '0' ++ ds := rfl
  have hzeros : ∀ c ∈ ['0'] ++ (List.replicate k '0' ++ ds), isDigit c = true := fun c hc =>
    (List.mem_append.1 (hall ▸ hc)).elim isDigit_of_mem_zeros (hdigits c)
  have hparts := pointed_parts (List.cons_ne_nil _ _) hzeros
    (List.append_ne_nil_of_right_ne_nil _ hne) (.inl rfl)
  rw [hall, Radix.valueOf_zeros_append, List.append_nil, List.length_append, List.length_replicate,
    show exponentValue [] = 0 from rfl, zero_sub] at hparts
  exact_mod_cast hparts

include hne in
/-- All digits and some zeros before the point. -/
theorem pointed_above (k : ℕ) : Pointed (ds ++ List.replicate k '0' ++ ['.', '0'])
    (Decimal.Scaled.value ⟨Radix.decimal.valueOf ds, k⟩) := by
  have hall : ds ++ List.replicate k '0' ++ ['0'] = ds ++ List.replicate (k + 1) '0' := by
    rw [List.append_assoc, ← List.replicate_succ']
  have hzeros : ∀ c ∈ ds ++ List.replicate k '0' ++ ['0'], isDigit c = true := fun c hc =>
    (List.mem_append.1 (hall ▸ hc)).elim (hdigits c) isDigit_of_mem_zeros
  have hparts := pointed_parts (List.append_ne_nil_of_left_ne_nil hne _) hzeros
    (List.cons_ne_nil _ _) (.inl rfl)
  have hvalue : (Decimal.Scaled.value ⟨Radix.decimal.valueOf ds * 10 ^ (k + 1), exponentValue [] - 1⟩) =
      Decimal.Scaled.value ⟨Radix.decimal.valueOf ds, k⟩ := by
    rw [Decimal.Scaled.value, Decimal.Scaled.value, show exponentValue [] - 1 = -1 from rfl]
    push_cast
    rw [pow_succ, zpow_natCast]
    ring
  rw [hall, Radix.valueOf_append_zeros] at hparts
  exact hvalue ▸ hparts

/-- The point between two digits. -/
theorem pointed_between {place : ℕ} (hpos : 0 < place) (hlt : place < ds.length) :
    Pointed (ds.take place ++ '.' :: ds.drop place)
      (Decimal.Scaled.value ⟨Radix.decimal.valueOf ds, -(ds.length - place)⟩) := by
  have hwhole : ds.take place ≠ [] := by
    rw [← List.length_pos_iff, List.length_take]
    omega
  have hfraction : ds.drop place ≠ [] := by
    rw [← List.length_pos_iff, List.length_drop]
    omega
  have hparts := pointed_parts hwhole (by rwa [List.take_append_drop]) hfraction (.inl rfl)
  rw [List.take_append_drop, List.append_nil, List.length_drop, show exponentValue [] = 0 from rfl, zero_sub,
    Nat.cast_sub hlt.le] at hparts
  exact hparts

end Digits

theorem toList_repr (n : ℕ) : (Nat.repr n).toList = Nat.toDigits 10 n := String.toList_ofList

theorem length_repr (n : ℕ) : (Nat.repr n).length = (Nat.toDigits 10 n).length := by
  rw [← String.length_toList, toList_repr]

section Layout

variable (d : Decimal.Scaled)

/-- Without an exponent there are digits on both sides of the point. -/
theorem positional_pointed : Pointed (Decimal.positional (Nat.repr d.digits)
    (d.exponent + (Nat.repr d.digits).length - 1)).toList d.value := by
  have hne : Nat.toDigits 10 d.digits ≠ [] := Nat.toDigits_ne_nil
  have hpos := List.length_pos_iff.2 hne
  have hdigits : ∀ c ∈ Nat.toDigits 10 d.digits, isDigit c = true := fun c => isDigit_of_mem_decimal
  have hvalue := Radix.valueOf_decimal d.digits
  have exponent_eq {e : ℤ} (he : e = d.exponent) : (⟨d.digits, e⟩ : Decimal.Scaled) = d := by rw [he]
  rw [Decimal.positional, length_repr, toList_repr]
  split
  · rename_i hlead
    have hbelow := pointed_below hne hdigits
      ((-(d.exponent + (Nat.toDigits 10 d.digits).length - 1)).toNat - 1)
    rw [hvalue, exponent_eq (by omega)] at hbelow
    simpa [toList_repr] using hbelow
  dsimp only
  split
  · rename_i hlead hwhole
    have habove := pointed_above hne hdigits
      ((d.exponent + (Nat.toDigits 10 d.digits).length - 1).toNat + 1 - (Nat.toDigits 10 d.digits).length)
    rw [hvalue, exponent_eq (by omega)] at habove
    simpa [toList_repr] using habove
  · rename_i hlead hwhole
    have hbetween := pointed_between hdigits (Nat.succ_pos _) (Nat.not_le.1 hwhole)
    rw [hvalue, exponent_eq (by omega)] at hbetween
    simpa using hbetween

/-- With an exponent there is a point behind the first digit if there are more. -/
theorem scientific_pointed (h : 10 ≤ d.digits) : Pointed (Decimal.scientific (Nat.repr d.digits)
    (d.exponent + (Nat.repr d.digits).length - 1)).toList d.value := by
  rw [length_repr]
  generalize hlead : d.exponent + (Nat.toDigits 10 d.digits).length - 1 = lead
  have hdigits : ∀ c ∈ Nat.toDigits 10 d.digits, isDigit c = true := fun c => isDigit_of_mem_decimal
  have hvalue := Radix.valueOf_decimal d.digits
  obtain ⟨hexp, hexponent⟩ := exponent_toString lead
  rw [Decimal.scientific, toList_repr]
  split
  · rename_i hnil
    exact (Nat.toDigits_ne_nil hnil).elim
  · rename_i first hone
    have hle : (Nat.toDigits 10 d.digits).length ≤ 1 := by rw [hone]; rfl
    have := (Nat.length_toDigits_le_iff (by norm_num) Nat.one_pos).1 hle
    omega
  · rename_i first rest hmore hrest
    have hne : rest ≠ [] := fun hnil => hmore hnil
    rw [hrest] at hdigits hvalue hlead
    have hparts := pointed_parts (List.cons_ne_nil first []) hdigits hne hexp
    have hplaces : lead - rest.length = d.exponent := by
      rw [List.length_cons] at hlead
      omega
    rw [show [first] ++ rest = first :: rest from rfl, hvalue, hexponent, hplaces] at hparts
    simpa using hparts

end Layout

/-- Whether digits are written as one of them and an exponent. -/
def IsBare (d : Decimal.Scaled) : Prop := d.digits < 10 ∧ ¬(-4 ≤ d.exponent ∧ d.exponent < 16)

/-- A finite value is written with a point otherwise. -/
theorem finiteText_pointed {x : Decimal.Dyadic} (h : ¬IsBare x.shortest) :
    Pointed (Decimal.finiteText x).toList x.shortest.value := by
  rw [Decimal.finiteText]
  split
  · exact positional_pointed _
  · rename_i hlead
    refine scientific_pointed _ (Nat.not_lt.1 fun hlt => h ⟨hlt, ?_⟩)
    rw [length_repr, Nat.toDigits_of_lt_base hlt, List.length_singleton] at hlead
    omega

theorem finiteText_bare {x : Decimal.Dyadic} (h : IsBare x.shortest) : (Decimal.finiteText x).toList =
    x.shortest.digits.digitChar :: 'e' :: (toString x.shortest.exponent).toList := by
  obtain ⟨hlt, hexponent⟩ := h
  have hlead : x.shortest.exponent + ((Nat.repr x.shortest.digits).length : ℤ) - 1 = x.shortest.exponent := by
    rw [length_repr, Nat.toDigits_of_lt_base hlt, List.length_singleton]
    omega
  rw [Decimal.finiteText, hlead, if_neg hexponent, Decimal.scientific, toList_repr,
    Nat.toDigits_of_lt_base hlt]
  simp

/-! ## Lengths -/

theorem length_toDigits_le (n : ℕ) : (Nat.toDigits 10 n).length ≤ n + 1 :=
  (Nat.length_toDigits_le_iff (by norm_num) n.succ_pos).2
    (lt_of_lt_of_le n.lt_succ_self (Nat.lt_pow_self (by norm_num)).le)

theorem length_toString_le (k : ℤ) : (toString k).toList.length ≤ k.natAbs + 2 := by
  cases k with
  | ofNat n =>
    rw [toList_toString_ofNat]
    exact (length_toDigits_le n).trans (Nat.le_succ _)
  | negSucc n =>
    rw [toList_toString_negSucc]
    exact Nat.succ_le_succ (length_toDigits_le (n + 1))

theorem length_positional_le {ds : String} {lead : ℤ} (hlow : -4 ≤ lead) (hhigh : lead < 16) :
    (Decimal.positional ds lead).toList.length ≤ ds.toList.length + 18 := by
  rw [Decimal.positional]
  split
  · simp only [String.toList_append, String.toList_ofList, List.length_append, List.length_replicate,
      show "0.".toList.length = 2 from rfl]
    omega
  dsimp only
  split
  · simp only [String.toList_append, String.toList_ofList, List.length_append, List.length_replicate,
      show ".0".toList.length = 2 from rfl]
    omega
  · simp only [String.toList_append, String.toList_ofList, List.length_append, List.length_take,
      List.length_drop, show ".".toList.length = 1 from rfl]
    omega

theorem length_scientific_le (ds : String) (lead : ℤ) :
    (Decimal.scientific ds lead).toList.length ≤ ds.toList.length + (toString lead).toList.length + 2 := by
  rw [Decimal.scientific]
  split
  · exact Nat.zero_le _
  · rename_i hds
    rw [hds]
    simp
  · rename_i hds
    rw [hds]
    simp
    omega

/-- A text is not much longer than its digits and the digits of its exponent. -/
theorem length_finiteText_le (x : Decimal.Dyadic) : (Decimal.finiteText x).toList.length ≤
    2 * (Nat.toDigits 10 x.shortest.digits).length + x.shortest.exponent.natAbs + 20 := by
  rw [Decimal.finiteText, length_repr, ← toList_repr]
  split
  · rename_i hlead
    have := @length_positional_le (Nat.repr x.shortest.digits) _ hlead.1 hlead.2
    omega
  · have := length_scientific_le (Nat.repr x.shortest.digits)
      (x.shortest.exponent + (Nat.repr x.shortest.digits).toList.length - 1)
    have := length_toString_le (x.shortest.exponent + (Nat.repr x.shortest.digits).toList.length - 1)
    omega

end SolSyntax
