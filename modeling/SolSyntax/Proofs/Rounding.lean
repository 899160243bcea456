import Mathlib.Algebra.Order.Field.Power
import Mathlib.Data.Nat.Cast.Order.Field
import Mathlib.Order.Compare
import Mathlib.Tactic.FieldSimp
import Mathlib.Tactic.Linarith
import Mathlib.Tactic.NormNum
import Mathlib.Tactic.Positivity
import Mathlib.Tactic.Ring
import SolSyntax.Decimal.Nearest
import SolSyntax.Decimal.Shortest

/-!
# Rounding to binary values

Decimals and binary values stand for rational numbers.  Reading rounds a decimal to the binary value whose
neighbourhood it is in: halfway to the neighbours on both sides, the ends included if the mantissa is even.
Below a power of two the neighbour is half as far away.

Principal results: `Dyadic.readsBack_iff` — the comparisons in natural numbers decide whether a decimal is in
the neighbourhood; `nearest_of_covers` — what is in the neighbourhood is read as the value.
-/

namespace SolSyntax.Decimal

/-- The number that a decimal stands for. -/
def Scaled.value (d : Scaled) : ℚ := d.digits * 10 ^ d.exponent

namespace Dyadic

/-- The number that a binary value stands for. -/
def value (x : Dyadic) : ℚ := x.mantissa * 2 ^ x.exponent

/-- The lower end of the neighbourhood. -/
def lower (x : Dyadic) : ℚ := (x.mantissa - if x.narrowBelow then 1 / 4 else 1 / 2) * 2 ^ x.exponent

/-- The upper end of the neighbourhood. -/
def upper (x : Dyadic) : ℚ := (x.mantissa + 1 / 2) * 2 ^ x.exponent

/-- A number is in the neighbourhood. -/
def Covers (x : Dyadic) (v : ℚ) : Prop :=
  (x.lower < v ∨ x.mantissa % 2 = 0 ∧ v = x.lower) ∧ (v < x.upper ∨ x.mantissa % 2 = 0 ∧ v = x.upper)

end Dyadic

/-! ## Comparisons -/

theorem zpow_mul_toNat {b : ℚ} (hb : b ≠ 0) (z : ℤ) : b ^ z * b ^ (-z).toNat = b ^ z.toNat := by
  rw [← zpow_natCast, ← zpow_natCast, ← zpow_add₀ hb]
  congr 1
  omega

namespace Dyadic

/-- Both sides are compared in units small enough to have natural numbers. -/
theorem compareScaled_eq (d : Scaled) (units : ℕ) (place : ℤ) :
    compareScaled d units place = compare d.value (units * 2 ^ place) := by
  have hten := zpow_mul_toNat (b := 10) (by norm_num) d.exponent
  have htwo := zpow_mul_toNat (b := 2) (by norm_num) place
  let unit : ℚ := 10 ^ (-d.exponent).toNat * 2 ^ (-place).toNat
  have hunit : 0 < unit := by positivity
  have hleft : d.value * unit =
      (((d.digits * Nat.pow 10 d.exponent.toNat) <<< (-place).toNat : ℕ) : ℚ) := by
    rw [Nat.shiftLeft_eq, Nat.pow_eq]
    push_cast
    rw [← hten, Scaled.value]
    ring
  have hright : (units * 2 ^ place : ℚ) * unit =
      (((units <<< place.toNat) * Nat.pow 10 (-d.exponent).toNat : ℕ) : ℚ) := by
    rw [Nat.shiftLeft_eq, Nat.pow_eq]
    push_cast
    rw [← htwo]
    ring
  rw [compareScaled, ← cmp_eq_compare, ← cmp_eq_compare, ← cmp_mul_pos_right hunit, hleft, hright]
  exact (Nat.strictMono_cast (α := ℚ)).cmp_map_eq _ _ |>.symm

theorem readsBack_iff {x : Dyadic} (hx : 0 < x.mantissa) (d : Scaled) :
    x.readsBack d = true ↔ x.Covers d.value := by
  have hquarter : (2 : ℚ) ^ (x.exponent - 2) = 2 ^ x.exponent / 4 := by
    rw [zpow_sub₀ (by norm_num)]
    norm_num
  have hlower : ((if x.narrowBelow then 4 * x.mantissa - 1 else 4 * x.mantissa - 2 : ℕ) : ℚ) *
      2 ^ (x.exponent - 2) = x.lower := by
    rw [hquarter, lower]
    split
    · rw [Nat.cast_sub (by omega)]
      push_cast
      ring
    · rw [Nat.cast_sub (by omega)]
      push_cast
      ring
  have hupper : ((4 * x.mantissa + 2 : ℕ) : ℚ) * 2 ^ (x.exponent - 2) = x.upper := by
    rw [hquarter, upper]
    push_cast
    ring
  rw [readsBack]
  simp only [compareScaled_eq, hlower, hupper, Bool.and_eq_true, Bool.or_eq_true, beq_iff_eq,
    compare_gt_iff_gt, compare_lt_iff_lt, compare_eq_iff_eq]
  exact Iff.rfl

end Dyadic

/-! ## Quotients -/

/-- The natural number nearest to a number, a half going to an even one. -/
def IsNearest (n : ℕ) (t : ℚ) : Prop :=
  (n - 1 / 2 < t ∨ n % 2 = 0 ∧ t = n - 1 / 2) ∧ (t < n + 1 / 2 ∨ n % 2 = 0 ∧ t = n + 1 / 2)

/-- Being nearest is told by products. -/
theorem isNearest_div {n num den : ℕ} (hden : 0 < den) : IsNearest n (num / den) ↔
    (2 * (n * den) < 2 * num + den ∨ n % 2 = 0 ∧ 2 * num + den = 2 * (n * den)) ∧
      (2 * num < 2 * (n * den) + den ∨ n % 2 = 0 ∧ 2 * num = 2 * (n * den) + den) := by
  have hpos : (0 : ℚ) < den := by exact_mod_cast hden
  have hlow : (n - 1 / 2 : ℚ) = (2 * (n * den) - den : ℚ) / (2 * den) := by field_simp
  have hhigh : (n + 1 / 2 : ℚ) = (2 * (n * den) + den : ℚ) / (2 * den) := by field_simp
  have hmid : (num / den : ℚ) = (2 * num : ℚ) / (2 * den) := by field_simp
  have htwo : (0 : ℚ) < 2 * den := by positivity
  rw [IsNearest, hlow, hhigh, hmid, div_lt_div_iff_of_pos_right htwo, div_lt_div_iff_of_pos_right htwo,
    div_left_inj' htwo.ne', div_left_inj' htwo.ne', sub_lt_iff_lt_add, eq_sub_iff_add_eq]
  norm_cast

theorem roundHalfEven_eq {num den n : ℕ} (hden : 0 < den) (h : IsNearest n (num / den)) :
    roundHalfEven num den = n := by
  obtain ⟨hlow, hhigh⟩ := (isNearest_div hden).1 h
  have hsum := Nat.div_add_mod' num den
  have hrest := Nat.mod_lt num hden
  rw [roundHalfEven]
  generalize num / den = q at hsum ⊢
  generalize num % den = r at hsum hrest ⊢
  -- only the quotient and its successor are near enough
  have hle : n ≤ q + 1 := by
    by_contra hlt
    have := Nat.mul_le_mul_right den (show q + 2 ≤ n by omega)
    rw [Nat.add_mul] at this
    omega
  have hge : q ≤ n := by
    by_contra hlt
    have := Nat.mul_le_mul_right den (show n + 1 ≤ q by omega)
    rw [Nat.add_mul] at this
    omega
  have hsucc : (q + 1) * den = q * den + den := Nat.succ_mul q den
  obtain rfl | rfl : n = q ∨ n = q + 1 := by omega
  · rcases hcompare : compare (2 * r) den with _ | _ | _
    · rfl
    · rw [Nat.compare_eq_eq] at hcompare
      dsimp only
      rw [if_pos (by omega)]
    · rw [Nat.compare_eq_gt] at hcompare
      omega
  · rcases hcompare : compare (2 * r) den with _ | _ | _
    · rw [Nat.compare_eq_lt] at hcompare
      omega
    · rw [Nat.compare_eq_eq] at hcompare
      dsimp only
      rw [if_neg (by omega)]
    · rfl

/-- Powers of two compared with a quotient. -/
theorem zpow_le_div_iff {num den : ℕ} (hden : 0 < den) (l : ℤ) :
    (2 : ℚ) ^ l ≤ num / den ↔ den <<< l.toNat ≤ num <<< (-l).toNat := by
  have hpos : (0 : ℚ) < den := by exact_mod_cast hden
  have hunit : (0 : ℚ) < 2 ^ (-l).toNat := by positivity
  have htwo := zpow_mul_toNat (b := 2) (by norm_num) l
  rw [le_div_iff₀ hpos, ← mul_le_mul_iff_left₀ hunit, Nat.shiftLeft_eq, Nat.shiftLeft_eq,
    mul_right_comm, htwo, mul_comm]
  norm_cast

/-- The power of two at or below a quotient. -/
theorem binade_spec {num den : ℕ} (hnum : 0 < num) (hden : 0 < den) :
    (2 : ℚ) ^ binade num den ≤ num / den ∧ (num / den : ℚ) < 2 ^ (binade num den + 1) := by
  have hpos : (0 : ℚ) < den := by exact_mod_cast hden
  have hnumLow : (2 : ℚ) ^ num.log2 ≤ num := by exact_mod_cast Nat.log2_self_le hnum.ne'
  have hnumHigh : (num : ℚ) < 2 ^ (num.log2 + 1) := by exact_mod_cast Nat.lt_log2_self
  have hdenLow : (2 : ℚ) ^ den.log2 ≤ den := by exact_mod_cast Nat.log2_self_le hden.ne'
  have hdenHigh : (den : ℚ) < 2 ^ (den.log2 + 1) := by exact_mod_cast Nat.lt_log2_self
  have hlow : (2 : ℚ) ^ ((num.log2 : ℤ) - den.log2 - 1) ≤ num / den := by
    rw [le_div_iff₀ hpos]
    calc (2 : ℚ) ^ ((num.log2 : ℤ) - den.log2 - 1) * den
        ≤ 2 ^ ((num.log2 : ℤ) - den.log2 - 1) * 2 ^ (den.log2 + 1) := by gcongr
      _ = 2 ^ num.log2 := by
        rw [← zpow_natCast, ← zpow_natCast, ← zpow_add₀ (by norm_num)]
        congr 1
        push_cast
        ring
      _ ≤ num := hnumLow
  have hhigh : (num / den : ℚ) < 2 ^ ((num.log2 : ℤ) - den.log2 + 1) := by
    rw [div_lt_iff₀ hpos]
    calc (num : ℚ) < 2 ^ (num.log2 + 1) := hnumHigh
      _ = 2 ^ ((num.log2 : ℤ) - den.log2 + 1) * 2 ^ den.log2 := by
        rw [← zpow_natCast, ← zpow_natCast, ← zpow_add₀ (by norm_num)]
        congr 1
        push_cast
        ring
      _ ≤ 2 ^ ((num.log2 : ℤ) - den.log2 + 1) * den := by gcongr
  rw [binade]
  split
  · rename_i h
    exact ⟨(zpow_le_div_iff hden _).2 h, hhigh⟩
  · rename_i h
    rw [← zpow_le_div_iff hden, not_le] at h
    exact ⟨hlow, by rwa [sub_add_cancel]⟩

/-- The significand is rounded in units of the last place. -/
theorem nearestQuotient_eq {num den n : ℕ} (hden : 0 < den) {q : ℤ}
    (hq : q = max (binade num den - 52) minExponent) (h : IsNearest n (num / den / 2 ^ q)) :
    nearestQuotient num den = min ((q - minExponent).toNat * 2 ^ 52 + n) infinityBits := by
  have htwo := zpow_mul_toNat (b := 2) (by norm_num) q
  have hscaled : (num / den / 2 ^ q : ℚ) =
      ((num <<< (-q).toNat : ℕ) : ℚ) / ((den <<< q.toNat : ℕ) : ℚ) := by
    rw [Nat.shiftLeft_eq, Nat.shiftLeft_eq]
    push_cast
    rw [← htwo]
    have : (2 : ℚ) ^ q ≠ 0 := by positivity
    have : (2 : ℚ) ^ (-q).toNat ≠ 0 := by positivity
    field_simp
  rw [hscaled] at h
  have hround := roundHalfEven_eq (Nat.lt_of_lt_of_le hden Nat.le_shiftLeft) h
  rw [nearestQuotient, ← hq, hround, Nat.shiftLeft_eq]

/-! ## Values with bits -/

namespace Dyadic

/-- A binary value is the positive one with the given bits. -/
structure Encodes (x : Dyadic) (bits : ℕ) : Prop where
  bits_eq : bits = (x.exponent - minExponent).toNat * 2 ^ 52 + x.mantissa
  exponent_ge : minExponent ≤ x.exponent
  exponent_le : x.exponent ≤ 971
  mantissa_pos : 0 < x.mantissa
  mantissa_lt : x.mantissa < 2 ^ 53
  /-- Only the least values have a small mantissa. -/
  normal : minExponent < x.exponent → 2 ^ 52 ≤ x.mantissa
  narrow : x.narrowBelow = true ↔ x.mantissa = 2 ^ 52 ∧ minExponent < x.exponent

variable {x : Dyadic} {bits : ℕ} {v : ℚ}

theorem Encodes.lt_infinityBits (h : x.Encodes bits) : bits < infinityBits := by
  have hmin : minExponent = -1074 := rfl
  have hinfinity : infinityBits = 2047 * 2 ^ 52 := rfl
  have hbits := h.bits_eq
  have hle := h.exponent_le
  have hm := h.mantissa_lt
  omega

theorem lower_le (x : Dyadic) : (x.mantissa - 1 / 2) * 2 ^ x.exponent ≤ x.lower := by
  rw [lower]
  gcongr
  split <;> norm_num

theorem Covers.lower_le (h : x.Covers v) : x.lower ≤ v := by
  rcases h.1 with h | ⟨-, h⟩
  · exact h.le
  · exact h.ge

theorem Covers.le_upper (h : x.Covers v) : v ≤ x.upper := by
  rcases h.2 with h | ⟨-, h⟩
  · exact h.le
  · exact h.le

theorem isNearest_div_unit {n : ℕ} {unit : ℚ} (hunit : 0 < unit) : IsNearest n (v / unit) ↔
    ((n - 1 / 2) * unit < v ∨ n % 2 = 0 ∧ v = (n - 1 / 2) * unit) ∧
      (v < (n + 1 / 2) * unit ∨ n % 2 = 0 ∧ v = (n + 1 / 2) * unit) := by
  rw [IsNearest, lt_div_iff₀ hunit, div_eq_iff hunit.ne', div_lt_iff₀ hunit, div_eq_iff hunit.ne']

/-- What rounds to a value is nearest to its mantissa in units of its last place. -/
theorem Covers.isNearest (h : x.Covers v) : IsNearest x.mantissa (v / 2 ^ x.exponent) := by
  refine (isNearest_div_unit (by positivity)).2 ⟨?_, h.2⟩
  rcases h.1 with hlt | ⟨heven, heq⟩
  · exact .inl (lt_of_le_of_lt x.lower_le hlt)
  · rcases lt_or_eq_of_le x.lower_le with hlt | hlower
    · exact .inl (heq ▸ hlt)
    · exact .inr ⟨heven, heq.trans hlower.symm⟩

theorem Encodes.lower_pos (h : x.Encodes bits) : 0 < x.lower := by
  have hm : (1 : ℚ) ≤ x.mantissa := by exact_mod_cast h.mantissa_pos
  exact lt_of_lt_of_le (mul_pos (by linarith) (by positivity)) x.lower_le

theorem Encodes.upper_lt (h : x.Encodes bits) : x.upper < 2 ^ (x.exponent + 53) := by
  have hm : (x.mantissa : ℚ) + 1 ≤ 2 ^ 53 := by exact_mod_cast h.mantissa_lt
  rw [upper, zpow_add₀ (by norm_num), mul_comm]
  gcongr
  norm_num at hm ⊢
  linarith

/-- The reach of the values, in powers of ten. -/
theorem two_zpow_le_ten_zpow : (2 : ℚ) ^ (1024 : ℤ) ≤ 10 ^ (309 : ℤ) := by
  have h : (2 : ℕ) ^ 1024 ≤ 10 ^ 309 := by decide +kernel
  exact_mod_cast h

theorem ten_zpow_le_two_zpow : (10 : ℚ) ^ (-331 : ℤ) ≤ 2 ^ (-1075 : ℤ) := by
  have h : (2 : ℕ) ^ 1075 ≤ 10 ^ 331 := by decide +kernel
  rw [zpow_neg, zpow_neg]
  gcongr
  exact_mod_cast h

theorem Encodes.upper_lt_ten (h : x.Encodes bits) : x.upper < 10 ^ (309 : ℤ) := by
  have hexponent : x.exponent + 53 ≤ 1024 := by
    have := h.exponent_le
    omega
  calc x.upper < 2 ^ (x.exponent + 53) := h.upper_lt
    _ ≤ 2 ^ (1024 : ℤ) := zpow_le_zpow_right₀ (by norm_num) hexponent
    _ ≤ 10 ^ (309 : ℤ) := two_zpow_le_ten_zpow

theorem Encodes.ten_le_lower (h : x.Encodes bits) : (10 : ℚ) ^ (-331 : ℤ) ≤ x.lower := by
  have hm : (1 : ℚ) ≤ x.mantissa := by exact_mod_cast h.mantissa_pos
  have hexponent : (-1074 : ℤ) ≤ x.exponent := h.exponent_ge
  calc (10 : ℚ) ^ (-331 : ℤ) ≤ 2 ^ (-1075 : ℤ) := ten_zpow_le_two_zpow
    _ = 1 / 2 * 2 ^ (-1074 : ℤ) := by
        rw [show (-1075 : ℤ) = -1 + -1074 by norm_num, zpow_add₀ (by norm_num), zpow_neg_one]
        norm_num
    _ ≤ (x.mantissa - 1 / 2) * 2 ^ x.exponent := by
        refine mul_le_mul (by linarith) (zpow_le_zpow_right₀ (by norm_num) hexponent) (by positivity) ?_
        linarith
    _ ≤ x.lower := x.lower_le

/-- Below the place where the mantissa is expected, only the neighbourhood of a power of two remains. -/
theorem Encodes.narrow_of_lt (h : x.Encodes bits) (hv : x.Covers v) (hlt : v < 2 ^ (x.exponent + 52))
    (hexponent : minExponent < x.exponent) :
    x.mantissa = 2 ^ 52 ∧ x.lower = (2 ^ 53 - 1 / 2) * 2 ^ (x.exponent - 1) := by
  have hunit : (0 : ℚ) < 2 ^ x.exponent := by positivity
  have hm : x.mantissa = 2 ^ 52 := by
    by_contra hne
    have hgt : 2 ^ 52 + 1 ≤ x.mantissa := by
      have := h.normal hexponent
      omega
    have hcast : ((2 ^ 52 + 1 : ℕ) : ℚ) ≤ (x.mantissa : ℚ) := Nat.cast_le.2 hgt
    have hlow := le_trans x.lower_le hv.lower_le
    rw [zpow_add₀ (by norm_num), mul_comm] at hlt
    have hbelow := lt_of_mul_lt_mul_right (lt_of_le_of_lt hlow hlt) hunit.le
    push_cast at hcast
    linarith
  refine ⟨hm, ?_⟩
  rw [lower, if_pos (h.narrow.2 ⟨hm, hexponent⟩), hm, zpow_sub₀ (by norm_num)]
  push_cast
  ring

/-- In units of a place below that of the mantissa, only the next power of two is near enough. -/
theorem Encodes.isNearest_below (h : x.Encodes bits) (hv : x.Covers v) {q : ℤ} (hmin : minExponent ≤ q)
    (hlt : q < x.exponent) (hgrid : v < 2 ^ (q + 53)) :
    q = x.exponent - 1 ∧ x.mantissa = 2 ^ 52 ∧ IsNearest (2 ^ 53) (v / 2 ^ q) := by
  obtain ⟨hmantissa, hlower⟩ := h.narrow_of_lt hv
    (lt_of_lt_of_le hgrid (zpow_le_zpow_right₀ (by norm_num) (by omega))) (by omega)
  have hplace : q = x.exponent - 1 := by
    have hbelow : (2 : ℚ) ^ (x.exponent + 51) < 2 ^ (q + 53) := by
      refine lt_of_le_of_lt ?_ (lt_of_le_of_lt hv.lower_le hgrid)
      rw [hlower, show x.exponent + 51 = 52 + (x.exponent - 1) by ring, zpow_add₀ (by norm_num)]
      gcongr
      norm_num
    have := (zpow_lt_zpow_iff_right₀ (by norm_num)).1 hbelow
    omega
  refine ⟨hplace, hmantissa, (isNearest_div_unit (by positivity)).2 ⟨?_, .inl ?_⟩⟩
  · rw [hplace, Nat.cast_pow, Nat.cast_ofNat, ← hlower]
    exact hv.1.imp_right fun h => ⟨rfl, h.2⟩
  · refine lt_of_lt_of_le hgrid ?_
    rw [zpow_add₀ (by norm_num), mul_comm]
    gcongr
    norm_num

/-- Rounding a quotient in the neighbourhood of a value gives the value. -/
theorem Encodes.nearestQuotient_eq {num den : ℕ} (h : x.Encodes bits) (hnum : 0 < num) (hden : 0 < den)
    (hv : x.Covers (num / den)) : nearestQuotient num den = bits := by
  obtain ⟨hlow, hhigh⟩ := binade_spec hnum hden
  have hmin : minExponent = -1074 := rfl
  generalize hq : max (binade num den - 52) minExponent = q
  have hgrid : (num / den : ℚ) < 2 ^ (q + 53) :=
    lt_of_lt_of_le hhigh (zpow_le_zpow_right₀ (by norm_num) (by omega))
  have hbits := h.bits_eq
  have hge := h.exponent_ge
  have hle := h.exponent_le
  have hm := h.mantissa_lt
  rcases lt_trichotomy q x.exponent with hlt | heq | hgt
  · -- the last place is that of the binade below
    obtain ⟨hplace, hmantissa, hnearest⟩ := h.isNearest_below hv (by omega) hlt hgrid
    have heq : (q - minExponent).toNat * 2 ^ 52 + 2 ^ 53 = bits := by omega
    rw [Decimal.nearestQuotient_eq hden hq.symm hnearest, heq, Nat.min_eq_left h.lt_infinityBits.le]
  · have hnearest := hv.isNearest
    rw [← heq] at hnearest
    rw [Decimal.nearestQuotient_eq hden hq.symm hnearest, heq, ← hbits, Nat.min_eq_left h.lt_infinityBits.le]
  · -- the quotient would not be below the end of the neighbourhood
    have habove : (2 : ℚ) ^ (x.exponent + 53) ≤ num / den :=
      le_trans (zpow_le_zpow_right₀ (by norm_num) (by omega)) hlow
    have := lt_of_le_of_lt hv.le_upper h.upper_lt
    linarith

end Dyadic

/-! ## Fields of the bits -/

theorem exponentField_eq (bits : UInt64) : exponentField bits = bits.toNat / 2 ^ 52 % 2 ^ 11 := by
  rw [exponentField, UInt64.toNat_and, UInt64.toNat_shiftRight, Nat.shiftRight_eq_div_pow]
  exact Nat.and_two_pow_sub_one_eq_mod _ 11

theorem fractionField_eq (bits : UInt64) : fractionField bits = bits.toNat % 2 ^ 52 := by
  rw [fractionField, UInt64.toNat_and]
  exact Nat.and_two_pow_sub_one_eq_mod _ 52

/-- Neither infinity nor a finite positive value has a sign. -/
theorem signBit_eq_false {bits : UInt64} (h : bits.toNat ≤ infinityBits) : signBit bits = false := by
  have hinfinity : infinityBits < 2 ^ 63 := by decide
  rw [signBit, beq_eq_false_iff_ne, ne_eq, ← UInt64.toNat_inj, UInt64.toNat_shiftRight,
    Nat.shiftRight_eq_div_pow]
  have hzero : bits.toNat / 2 ^ 63 = 0 := Nat.div_eq_of_lt (by omega)
  rw [show UInt64.toNat 63 % 64 = 63 from rfl, hzero]
  exact Nat.zero_ne_one

/-- The bits of a finite positive value are decoded to it. -/
theorem Dyadic.ofBits_encodes {bits : UInt64} (hpos : 0 < bits.toNat) (hlt : bits.toNat < infinityBits) :
    (ofBits bits).Encodes bits.toNat := by
  have hmin : minExponent = -1074 := rfl
  have hinfinity : infinityBits = 2047 * 2 ^ 52 := rfl
  have hexponent := exponentField_eq bits
  have hfraction := fractionField_eq bits
  have hshift : 1 <<< 52 = 2 ^ 52 := rfl
  rw [ofBits, hshift]
  split
  · constructor <;> dsimp only
    case narrow =>
      simp only [Bool.false_eq_true, false_iff, not_and, not_lt]
      omega
    all_goals omega
  · constructor <;> dsimp only
    case narrow =>
      simp only [Bool.and_eq_true, beq_iff_eq, decide_eq_true_eq]
      omega
    all_goals omega

/-- What is read is infinity or less. -/
theorem toNat_nearest_le (digits : ℕ) (exponent : ℤ) : (nearest digits exponent).toNat ≤ infinityBits := by
  have hinfinity : infinityBits < 2 ^ 64 := by decide
  have toNat {n : ℕ} (h : n ≤ infinityBits) : n.toUInt64.toNat ≤ infinityBits := by
    rw [Nat.toUInt64, UInt64.toNat_ofNat', Nat.mod_eq_of_lt (by omega)]
    exact h
  rw [nearest]
  split
  · exact Nat.zero_le _
  split
  · exact toNat le_rfl
  split
  · exact Nat.zero_le _
  · exact toNat (Nat.min_le_right _ _)

/-! ## Decimals -/

namespace Scaled

variable {d : Scaled}

theorem digits_ne_zero (h : 0 < d.value) : d.digits ≠ 0 := by
  intro hzero
  rw [value, hzero, Nat.cast_zero, zero_mul] at h
  exact lt_irrefl _ h

/-- A decimal is a quotient of natural numbers. -/
theorem value_eq_div (d : Scaled) : d.value =
    ((d.digits * Nat.pow 10 d.exponent.toNat : ℕ) : ℚ) / (Nat.pow 10 (-d.exponent).toNat : ℕ) := by
  have hten := zpow_mul_toNat (b := 10) (by norm_num) d.exponent
  have hne : (10 : ℚ) ^ (-d.exponent).toNat ≠ 0 := by positivity
  rw [Nat.pow_eq, Nat.pow_eq]
  push_cast
  rw [value, ← hten, eq_div_iff hne, mul_assoc]

/-- With a large exponent a decimal is above all values. -/
theorem le_value (h : d.digits ≠ 0) {k : ℤ} (hk : k ≤ d.exponent) : (10 : ℚ) ^ k ≤ d.value := by
  have hone : (1 : ℚ) ≤ d.digits := by exact_mod_cast Nat.pos_of_ne_zero h
  calc (10 : ℚ) ^ k ≤ 10 ^ d.exponent := zpow_le_zpow_right₀ (by norm_num) hk
    _ ≤ d.digits * 10 ^ d.exponent := le_mul_of_one_le_left (by positivity) hone

/-- With a small exponent a decimal is below all values, unless it has many digits. -/
theorem value_lt {k : ℤ} (hk : d.exponent + (d.digits.log2 + 1) ≤ k) : d.value < 10 ^ k := by
  have hdigits : (d.digits : ℚ) < 2 ^ (d.digits.log2 + 1) := by exact_mod_cast Nat.lt_log2_self
  calc d.value < 2 ^ (d.digits.log2 + 1) * 10 ^ d.exponent := by
        rw [value]
        gcongr
    _ ≤ 10 ^ (d.digits.log2 + 1) * 10 ^ d.exponent := by
        gcongr
        norm_num
    _ = 10 ^ (d.exponent + (d.digits.log2 + 1)) := by
        rw [← zpow_natCast, ← zpow_add₀ (by norm_num)]
        push_cast
        congr 1
        ring
    _ ≤ 10 ^ k := zpow_le_zpow_right₀ (by norm_num) hk

end Scaled

/-- What is in the neighbourhood of a value is read as the value. -/
theorem nearest_of_covers {x : Dyadic} {bits : ℕ} (h : x.Encodes bits) {d : Scaled}
    (hd : x.Covers d.value) : nearest d.digits d.exponent = bits.toUInt64 := by
  have hlow : (10 : ℚ) ^ (-331 : ℤ) ≤ d.value := le_trans h.ten_le_lower hd.lower_le
  have hhigh : d.value < 10 ^ (309 : ℤ) := lt_of_le_of_lt hd.le_upper h.upper_lt_ten
  have hdigits := Scaled.digits_ne_zero (lt_of_lt_of_le (by positivity) hlow)
  -- the exponents that are not computed with are out of reach
  have hexponent : d.exponent < 309 := by
    by_contra hge
    have := Scaled.le_value hdigits (k := 309) (by omega)
    linarith
  have hfew : -331 < d.exponent + (d.digits.log2 + 1) := by
    by_contra hle
    have := Scaled.value_lt (d := d) (k := -331) (by omega)
    linarith
  rw [nearest, if_neg hdigits, if_neg (by omega), if_neg (by omega)]
  have hnum : 0 < d.digits * Nat.pow 10 d.exponent.toNat :=
    Nat.mul_pos (Nat.pos_of_ne_zero hdigits) (Nat.pow_pos (by norm_num))
  have hden : 0 < Nat.pow 10 (-d.exponent).toNat := Nat.pow_pos (by norm_num)
  rw [Scaled.value_eq_div] at hd
  rw [h.nearestQuotient_eq hnum hden hd]

end SolSyntax.Decimal
