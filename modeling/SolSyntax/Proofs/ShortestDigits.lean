import Mathlib.Algebra.Order.Floor.Semifield
import Mathlib.Data.Rat.Floor
import SolSyntax.Proofs.Rounding

/-!
# Digits that read back

The search for the shortest digits of a value takes ever finer decimal grids and stops at the first that has
a point in the neighbourhood of the value.  Sixteen places below the leading digit the points are less than a
neighbourhood apart, so the search succeeds, and what it finds is read as the value.

Principal results: `Dyadic.exists_nearestOn` — seventeen digits suffice; `Dyadic.shortest_covers`.
-/

namespace SolSyntax.Decimal.Dyadic

variable {x : Dyadic} {bits : ℕ} {place : ℤ}

/-! ## Places -/

/-- The place of the leading digit is found if it lies within the steps. -/
theorem leadingPlace_spec {start : ℤ} {steps : ℕ} (h : (10 : ℚ) ^ (start - steps) ≤ x.value) :
    start - steps ≤ x.leadingPlace start steps ∧ (10 : ℚ) ^ x.leadingPlace start steps ≤ x.value := by
  induction steps generalizing start with
  | zero => simpa [leadingPlace] using h
  | succ steps ih =>
    rw [leadingPlace]
    split
    · have hsteps : start - (steps + 1 : ℕ) = start - 1 - steps := by
        push_cast
        ring
      rw [hsteps] at h ⊢
      exact ih h
    · rename_i hgt
      have hle : (10 : ℚ) ^ start ≤ x.value := by
        simpa [compareScaled_eq, Scaled.value, value, compare_gt_iff_gt] using hgt
      exact ⟨by omega, hle⟩

/-- The points of a grid next to a value. -/
theorem floorOn_spec (x : Dyadic) (place : ℤ) : (x.floorOn place : ℚ) * 10 ^ place ≤ x.value ∧
    x.value < (x.floorOn place + 1) * 10 ^ place := by
  have hten := zpow_mul_toNat (b := 10) (by norm_num) place
  have htwo := zpow_mul_toNat (b := 2) (by norm_num) x.exponent
  have hunit : (0 : ℚ) < 10 ^ place := by positivity
  have hquotient : x.value / 10 ^ place =
      (((x.mantissa <<< x.exponent.toNat) * Nat.pow 10 (-place).toNat : ℕ) : ℚ) /
        ((Nat.pow 10 place.toNat <<< (-x.exponent).toNat : ℕ) : ℚ) := by
    rw [Nat.shiftLeft_eq, Nat.shiftLeft_eq, Nat.pow_eq, Nat.pow_eq]
    push_cast
    rw [← hten, ← htwo, value]
    field_simp
  rw [← le_div_iff₀ hunit, ← div_lt_iff₀ hunit, hquotient, floorOn, ← Nat.floor_div_eq_div (K := ℚ)]
  exact ⟨Nat.floor_le (by positivity), Nat.lt_floor_add_one _⟩

/-! ## Grids -/

theorem nearestOn_covers (hx : 0 < x.mantissa) {d : Scaled} (h : x.nearestOn place = some d) :
    x.Covers d.value ∧ d.exponent = place := by
  rw [nearestOn] at h
  dsimp only at h
  split at h
  · cases h
  · rename_i hbelow habove
    cases h
    exact ⟨(readsBack_iff hx _).1 hbelow, rfl⟩
  · rename_i hbelow habove
    cases h
    exact ⟨(readsBack_iff hx _).1 habove, rfl⟩
  · rename_i hbelow habove
    split at h
    · cases h
      exact ⟨(readsBack_iff hx _).1 hbelow, rfl⟩
    · cases h
      exact ⟨(readsBack_iff hx _).1 habove, rfl⟩

theorem exists_nearestOn_of_readsBack (h : x.readsBack ⟨x.floorOn place, place⟩ = true ∨
    x.readsBack ⟨x.floorOn place + 1, place⟩ = true) : ∃ d, x.nearestOn place = some d := by
  rw [nearestOn]
  dsimp only
  split
  · rename_i hbelow habove
    rw [hbelow, habove] at h
    simp at h
  · exact ⟨_, rfl⟩
  · exact ⟨_, rfl⟩
  · split <;> exact ⟨_, rfl⟩

/-- Sixteen places below the leading digit a point of the grid is in the neighbourhood. -/
theorem exists_nearestOn (h : x.Encodes bits) (hplace : (10 : ℚ) ^ place * 10 ^ 16 ≤ x.value) :
    ∃ d, x.nearestOn place = some d := by
  obtain ⟨hbelow, habove⟩ := floorOn_spec x place
  refine exists_nearestOn_of_readsBack ?_
  rw [readsBack_iff h.mantissa_pos, readsBack_iff h.mantissa_pos, Scaled.value, Scaled.value]
  push_cast
  have hunit : (0 : ℚ) < 2 ^ x.exponent := by positivity
  have hm : (x.mantissa : ℚ) ≤ 2 ^ 53 := by exact_mod_cast h.mantissa_lt.le
  have hupper : x.upper = x.value + 1 / 2 * 2 ^ x.exponent := by
    rw [upper, value]
    ring
  by_cases hnarrow : x.narrowBelow = true
  · -- above a power of two the point above is near enough
    have hpower := (h.narrow.1 hnarrow).1
    have hlower : x.lower < x.value := by
      rw [lower, if_pos hnarrow, value]
      gcongr
      norm_num
    have hspacing : (10 : ℚ) ^ place * 10 ^ 16 ≤ 2 ^ 52 * 2 ^ x.exponent := by
      rw [value, hpower] at hplace
      exact_mod_cast hplace
    refine .inr ⟨.inl (hlower.trans habove), .inl ?_⟩
    rw [hupper]
    linarith
  · have hlower : x.lower = x.value - 1 / 2 * 2 ^ x.exponent := by
      rw [lower, if_neg hnarrow, value]
      ring
    have hspacing : (10 : ℚ) ^ place * 10 ^ 16 ≤ 2 ^ 53 * 2 ^ x.exponent := by
      rw [value] at hplace
      exact hplace.trans (by gcongr)
    rw [Covers, Covers, hlower, hupper]
    by_cases hnear : x.value - 1 / 2 * 2 ^ x.exponent < x.floorOn place * 10 ^ place
    · exact .inl ⟨.inl hnear, .inl (by linarith)⟩
    · exact .inr ⟨.inl (by linarith), .inl (by linarith)⟩

/-! ## The search -/

/-- The search stops at a grid with a point in the neighbourhood if there is one. -/
theorem searchFrom_spec {grids : ℕ} (h : ∃ g < grids, ∃ d, x.nearestOn (place - g) = some d) :
    ∃ p, place - grids < p ∧ x.nearestOn p = some (x.searchFrom place grids) := by
  induction grids generalizing place with
  | zero =>
    obtain ⟨g, hg, -⟩ := h
    omega
  | succ grids ih =>
    rw [searchFrom]
    split
    · rename_i d hd
      exact ⟨place, by omega, hd⟩
    · rename_i hnone
      obtain ⟨g, hg, d, hd⟩ := h
      cases g with
      | zero =>
        rw [Nat.cast_zero, sub_zero, hnone] at hd
        cases hd
      | succ g =>
        have hplace : place - (g + 1 : ℕ) = place - 1 - g := by
          push_cast
          ring
        rw [hplace] at hd
        obtain ⟨p, hp, hfound⟩ := ih ⟨g, by omega, d, hd⟩
        exact ⟨p, by omega, hfound⟩

/-- Moving zeros into the exponent changes no value. -/
theorem stripZeros_spec (exponent : ℤ) (steps digits : ℕ) :
    (stripZeros exponent steps digits).value = (⟨digits, exponent⟩ : Scaled).value ∧
      exponent ≤ (stripZeros exponent steps digits).exponent := by
  induction steps generalizing exponent digits with
  | zero => exact ⟨rfl, le_rfl⟩
  | succ steps ih =>
    rw [stripZeros]
    split
    · rename_i hzero
      obtain ⟨hvalue, hexponent⟩ := ih (exponent + 1) (digits / 10)
      refine ⟨?_, by omega⟩
      have hdigits : (digits : ℚ) = 10 * (digits / 10 : ℕ) := by
        exact_mod_cast (Nat.mul_div_cancel' (Nat.dvd_of_mod_eq_zero hzero.1)).symm
      rw [hvalue, Scaled.value, Scaled.value, hdigits, zpow_add_one₀ (by norm_num)]
      ring
    · exact ⟨rfl, le_rfl⟩

/-- The digits found read back, and their places are bounded. -/
theorem shortest_covers (h : x.Encodes bits) :
    x.Covers x.shortest.value ∧ -348 < x.shortest.exponent := by
  have hlow : (10 : ℚ) ^ (309 - (640 : ℕ) : ℤ) ≤ x.value := by
    have hlower : x.lower ≤ x.value := by
      rw [lower, value]
      gcongr
      split <;> norm_num
    exact h.ten_le_lower.trans hlower
  obtain ⟨hplace, hleading⟩ := leadingPlace_spec hlow
  rw [shortest]
  generalize x.leadingPlace 309 640 = place at hplace hleading ⊢
  have hgrid : (10 : ℚ) ^ (place - (16 : ℕ)) * 10 ^ 16 ≤ x.value := by
    rwa [← zpow_natCast, ← zpow_add₀ (by norm_num), sub_add_cancel]
  obtain ⟨d, hd⟩ := exists_nearestOn h hgrid
  have hgrids : ∃ g : ℕ, g < 17 ∧ ∃ d, x.nearestOn (place - g) = some d := ⟨16, by norm_num, d, hd⟩
  obtain ⟨p, hp, hfound⟩ := searchFrom_spec hgrids
  obtain ⟨hcovers, hexponent⟩ := nearestOn_covers h.mantissa_pos hfound
  obtain ⟨hvalue, hle⟩ := stripZeros_spec (x.searchFrom place 17).exponent 20 (x.searchFrom place 17).digits
  exact ⟨hvalue ▸ hcovers, by omega⟩

/-- A decimal of the same value as the shortest is read back. -/
theorem nearest_of_value_eq (h : x.Encodes bits) {d : Scaled} (hd : d.value = x.shortest.value) :
    nearest d.digits d.exponent = bits.toUInt64 :=
  nearest_of_covers h (hd ▸ (shortest_covers h).1)

/-- The digits found are not many. -/
theorem shortest_bounds (h : x.Encodes bits) :
    x.shortest.digits < 10 ^ 656 ∧ -348 < x.shortest.exponent ∧ x.shortest.exponent < 309 := by
  obtain ⟨hcovers, hexponent⟩ := shortest_covers h
  generalize x.shortest = d at hcovers hexponent ⊢
  have hpos : 0 < d.value := lt_of_lt_of_le h.lower_pos hcovers.lower_le
  have hhigh : d.value < 10 ^ (309 : ℤ) := lt_of_le_of_lt hcovers.le_upper h.upper_lt_ten
  refine ⟨?_, hexponent, ?_⟩
  · have hunit : (10 : ℚ) ^ (-347 : ℤ) ≤ 10 ^ d.exponent := zpow_le_zpow_right₀ (by norm_num) (by omega)
    have hproduct : (d.digits : ℚ) * 10 ^ (-347 : ℤ) < 10 ^ (309 : ℤ) :=
      lt_of_le_of_lt (mul_le_mul_of_nonneg_left hunit (Nat.cast_nonneg _)) hhigh
    have hlarge : (d.digits : ℚ) < 10 ^ (656 : ℤ) := by
      rwa [zpow_neg, ← div_eq_mul_inv, div_lt_iff₀ (by positivity), ← zpow_add₀ (by norm_num)] at hproduct
    exact_mod_cast hlarge
  · by_contra hge
    have := Scaled.le_value (Scaled.digits_ne_zero hpos) (k := 309) (by omega)
    linarith

end SolSyntax.Decimal.Dyadic
