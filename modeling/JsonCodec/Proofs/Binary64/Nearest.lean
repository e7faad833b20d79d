import Mathlib
import JsonCodec.Proofs.Binary64.Rounding

set_option autoImplicit false

namespace JsonCodec.Binary64

theorem infiniteMagnitude_lt : infiniteMagnitude < signBit := by decide

theorem magnitude_ofMagnitude (negative : Bool) {m : Nat} (h : m < signBit) :
    (ofMagnitude negative m).magnitude = m := by
  rw [signBit] at h
  cases negative <;> simp [magnitude, ofMagnitude, signBit] <;> omega

theorem isNegative_ofMagnitude (negative : Bool) {m : Nat} (h : m < signBit) :
    (ofMagnitude negative m).isNegative = negative := by
  rw [signBit] at h
  cases negative <;> simp [isNegative, ofMagnitude, signBit] <;> omega

theorem magnitude_lt (x : Binary64) : x.magnitude < signBit := Nat.mod_lt _ (by decide)

theorem ofMagnitude_eq (x : Binary64) : ofMagnitude x.isNegative x.magnitude = x := by
  obtain ⟨bits⟩ := x
  have hb := bits.toNat_lt
  simp only [ofMagnitude, isNegative, magnitude, signBit, mk.injEq]
  rw [← UInt64.toNat_inj]
  by_cases h : 0x8000000000000000 ≤ bits.toNat
  · simp [h]
    omega
  · simp [h]
    omega

theorem neg_ofMagnitude (negative : Bool) {m : Nat} (h : m < signBit) :
    (ofMagnitude negative m).neg = ofMagnitude (!negative) m := by
  rw [neg, isNegative_ofMagnitude negative h, magnitude_ofMagnitude negative h]

theorem one_eq : one = 2 ^ 1074 := by rw [← Nat.one_shiftLeft, one]

theorem one_pos : 0 < one := by simp only [one_eq, Nat.two_pow_pos]

theorem cast_one_pos : (0 : ℚ) < one := Nat.cast_pos.2 one_pos

theorem cast_one_ne_zero : (one : ℚ) ≠ 0 := cast_one_pos.ne'

theorem exists_nearest {q : ℚ} (hq : 0 ≤ q) :
    ∃ m, Rounds (q * one) m ∧
      ∀ negative, nearest negative q = ofMagnitude negative (min m infiniteMagnitude) := by
  obtain ⟨m, hm⟩ := exists_rounds (mul_nonneg hq (Nat.cast_nonneg one))
  exact ⟨m, hm, fun negative => nearest_eq_of_rounds negative hq hm⟩

theorem exists_magnitude_nearest (negative : Bool) {q : ℚ} (hq : 0 ≤ q) :
    ∃ m, Rounds (q * one) m ∧ (nearest negative q).magnitude = min m infiniteMagnitude := by
  obtain ⟨m, hm, h⟩ := exists_nearest hq
  refine ⟨m, hm, ?_⟩
  rw [h, magnitude_ofMagnitude negative ((Nat.min_le_right _ _).trans_lt infiniteMagnitude_lt)]

theorem isNegative_nearest (negative : Bool) {q : ℚ} (hq : 0 ≤ q) :
    (nearest negative q).isNegative = negative := by
  obtain ⟨m, -, h⟩ := exists_nearest hq
  rw [h, isNegative_ofMagnitude negative ((Nat.min_le_right _ _).trans_lt infiniteMagnitude_lt)]

theorem neg_nearest (negative : Bool) {q : ℚ} (hq : 0 ≤ q) :
    (nearest negative q).neg = nearest (!negative) q := by
  obtain ⟨m, -, h⟩ := exists_nearest hq
  rw [h, h, neg_ofMagnitude negative ((Nat.min_le_right _ _).trans_lt infiniteMagnitude_lt)]

theorem nearest_units (negative : Bool) {m : Nat} (h : m ≤ infiniteMagnitude) :
    nearest negative (unitsOf m / one) = ofMagnitude negative m := by
  have hr : Rounds ((unitsOf m / one : ℚ) * one) m := by
    rw [div_mul_cancel₀ _ cast_one_ne_zero]
    exact rounds_unitsOf m
  rw [nearest_eq_of_rounds negative (by positivity) hr, min_eq_left h]

theorem nearest_self {x : Binary64} (h : x.isFinite = true) :
    nearest x.isNegative (x.units / one) = x := by
  have hm : x.magnitude < infiniteMagnitude := by simpa [isFinite] using h
  rw [units_eq, nearest_units x.isNegative hm.le, ofMagnitude_eq]

theorem nearest_zero (negative : Bool) : nearest negative 0 = zero negative := by
  have h := nearest_units negative (Nat.zero_le infiniteMagnitude)
  have h0 : unitsOf 0 = 0 := by decide
  rw [h0, Nat.cast_zero, zero_div] at h
  exact h

theorem exists_unitsOf (r s : Nat) (hr : r ≤ 2 ^ 53) : ∃ m, unitsOf m = r * 2 ^ s := by
  induction s generalizing r with
  | zero => exact ⟨r, by simpa using unitsOf_eq 0 r hr (.inl rfl)⟩
  | succ s ih =>
    rcases Nat.lt_or_ge r (2 ^ 52) with h | h
    · obtain ⟨m, hm⟩ := ih (2 * r) (by omega)
      exact ⟨m, by rw [hm, pow_succ]; ring⟩
    · exact ⟨(s + 1) * leadingOne + r, unitsOf_eq (s + 1) r hr (.inr h)⟩

theorem infiniteMagnitude_eq : infiniteMagnitude = 2045 * leadingOne + 2 ^ 53 := by decide

theorem unitsOf_infinite : unitsOf infiniteMagnitude = 2 ^ 53 * 2 ^ 2045 := by
  simp only [infiniteMagnitude_eq, unitsOf_eq 2045 (2 ^ 53) le_rfl (.inr (by decide))]

theorem units_nearest (negative : Bool) {r s : Nat} (hr : r ≤ 2 ^ 53) (hs : s ≤ 2045) :
    (nearest negative ((r * 2 ^ s : Nat) / one)).units = r * 2 ^ s := by
  obtain ⟨m, hm⟩ := exists_unitsOf r s hr
  have hle : m ≤ infiniteMagnitude := by
    rw [← strictMono_unitsOf.le_iff_le, hm, unitsOf_infinite]
    gcongr
    decide
  rw [← hm, nearest_units negative hle, units_eq,
    magnitude_ofMagnitude negative (hle.trans_lt infiniteMagnitude_lt)]

theorem units_nearest_natCast (negative : Bool) {n : Nat} (hn : n ≤ 2 ^ 53) :
    (nearest negative (n : ℚ)).units = n * one := by
  have h := units_nearest negative hn (show 1074 ≤ 2045 by decide)
  rw [← one_eq, Nat.cast_mul, mul_div_assoc, div_self cast_one_ne_zero, mul_one] at h
  exact h

/-- Powers of ten are doubles as long as their odd part fits a significand. -/
theorem units_nearest_powerOfTen (negative : Bool) {e : Nat} (he : e ≤ 22) :
    (nearest negative ((10 ^ e : Nat) : ℚ)).units = 10 ^ e * one := by
  have h5 : 5 ^ e ≤ 2 ^ 53 := (Nat.pow_le_pow_right (by decide) he).trans (by decide)
  have h := units_nearest negative h5 (show e + 1074 ≤ 2045 by omega)
  have hsplit : 5 ^ e * 2 ^ (e + 1074) = 10 ^ e * one := by
    rw [show 10 = 5 * 2 from rfl, mul_pow, pow_add, one_eq, mul_assoc]
  rw [hsplit, Nat.cast_mul, mul_div_assoc, div_self cast_one_ne_zero, mul_one] at h
  exact h

theorem ofNat_eq (n : Nat) : ofNat n = nearest false n := by
  rw [ofNat, ofRatio_eq false n Nat.one_pos, Nat.cast_one, div_one]

/-- Half a unit beyond the largest finite double, where magnitudes start to be rounded to
infinity. -/
def overflowLimit : ℚ := ((2 : ℚ) ^ 54 - 1) * (2 : ℚ) ^ 970

theorem two_mul_halfway (a b : ℚ) : 2 * ((2 ^ 54 - 1) * a * b) =
    (2 ^ 53 - 1) * (2 * (a * b)) + 2 ^ 53 * (2 * (a * b)) := by
  ring

theorem two_mul_overflowLimit : 2 * (overflowLimit * one) =
    (unitsOf (infiniteMagnitude - 1) + unitsOf infiniteMagnitude : ℚ) := by
  have hpred : infiniteMagnitude - 1 = 2045 * leadingOne + (2 ^ 53 - 1) := by decide
  have h : unitsOf (infiniteMagnitude - 1) = (2 ^ 53 - 1) * 2 ^ 2045 := by
    rw [hpred, unitsOf_eq 2045 (2 ^ 53 - 1) (by decide) (.inr (by decide))]
  have h' : (unitsOf (infiniteMagnitude - 1) : ℚ) = (2 ^ 53 - 1) * 2 ^ 2045 := by
    rw [h, Nat.cast_mul, Nat.cast_sub (by decide), Nat.cast_pow, Nat.cast_pow, Nat.cast_one,
      Nat.cast_ofNat]
  have hs : (2 : ℚ) ^ 2045 = 2 * (2 ^ 970 * 2 ^ 1074) := by rw [← pow_add, ← pow_succ']
  rw [h', unitsOf_infinite, overflowLimit, one_eq, Nat.cast_mul, Nat.cast_pow, Nat.cast_pow,
    Nat.cast_pow, Nat.cast_ofNat, hs]
  exact two_mul_halfway _ _

theorem isInfinite_nearest (negative : Bool) {q : ℚ} (hq : 0 ≤ q) :
    (nearest negative q).isInfinite = true ↔ overflowLimit ≤ q := by
  obtain ⟨m, hm, h⟩ := exists_magnitude_nearest negative hq
  rw [isInfinite, h, beq_iff_eq, min_eq_right_iff]
  constructor
  · intro hle
    have h₁ : (unitsOf (infiniteMagnitude - 1) : ℚ) ≤ unitsOf (m - 1) := by
      exact_mod_cast strictMono_unitsOf.monotone (by omega)
    have h₂ : (unitsOf infiniteMagnitude : ℚ) ≤ unitsOf m := by
      exact_mod_cast strictMono_unitsOf.monotone hle
    have hl := hm.lower (by have : 0 < infiniteMagnitude := by decide
                            omega)
    have h₃ := two_mul_overflowLimit
    exact le_of_mul_le_mul_right (by linarith) cast_one_pos
  · intro hle
    have hlt : (unitsOf infiniteMagnitude : ℚ) < unitsOf (infiniteMagnitude + 1) := by
      exact_mod_cast strictMono_unitsOf (Nat.lt_succ_self _)
    have hlt' : (unitsOf (infiniteMagnitude - 1) : ℚ) < unitsOf infiniteMagnitude := by
      exact_mod_cast strictMono_unitsOf (by decide)
    have h₃ := two_mul_overflowLimit
    -- the limit itself is half way to infinity, whose count is even
    have hlimit : Rounds (overflowLimit * one) infiniteMagnitude :=
      ⟨fun _ => h₃.ge, fun _ _ => by decide, by linarith, fun he => absurd he (by linarith)⟩
    exact hlimit.le hm (mul_le_mul_of_nonneg_right hle cast_one_pos.le)

theorem isFinite_nearest (negative : Bool) {q : ℚ} (hq : 0 ≤ q) (h : q < overflowLimit) :
    (nearest negative q).isFinite = true := by
  obtain ⟨m, -, hm⟩ := exists_magnitude_nearest negative hq
  have hinf : ¬ (nearest negative q).isInfinite = true := by
    rw [isInfinite_nearest negative hq]
    exact not_le.2 h
  rw [isInfinite, hm, beq_iff_eq] at hinf
  rw [isFinite, hm, decide_eq_true_eq]
  omega

theorem nearest_eq_infinity (negative : Bool) {q : ℚ} (h : overflowLimit ≤ q) :
    nearest negative q = infinity negative := by
  have hq : 0 ≤ q := by
    refine le_trans ?_ h
    unfold overflowLimit
    exact mul_nonneg (by norm_num) (by positivity)
  have hinf := (isInfinite_nearest negative hq).2 h
  rw [isInfinite, beq_iff_eq] at hinf
  rw [← ofMagnitude_eq (nearest negative q), isNegative_nearest negative hq, hinf, infinity]

/-- Half of the least positive double still belongs to zero, whose count is even. -/
theorem rounds_zero_iff {q : ℚ} : Rounds q 0 ↔ 2 * q ≤ 1 := by
  have h0 : (unitsOf 0 : ℚ) = 0 := by exact_mod_cast (by decide : unitsOf 0 = 0)
  have h1 : (unitsOf 1 : ℚ) = 1 := by exact_mod_cast (by decide : unitsOf 1 = 1)
  constructor
  · intro h
    have hu := h.upper
    rwa [h0, h1, zero_add] at hu
  · intro h
    exact ⟨fun hne => absurd rfl hne, fun hne => absurd rfl hne, by rwa [h0, h1, zero_add],
      fun _ => by decide⟩

theorem nearest_eq_zero (negative : Bool) {q : ℚ} (hq : 0 ≤ q) (h : 2 * (q * one) ≤ 1) :
    nearest negative q = zero negative := by
  rw [nearest_eq_of_rounds negative hq (rounds_zero_iff.2 h)]
  rfl

theorem isZero_nearest (negative : Bool) {q : ℚ} (hq : 0 ≤ q) :
    (nearest negative q).isZero = true ↔ 2 * (q * one) ≤ 1 := by
  constructor
  · intro hz
    obtain ⟨m, hm, h⟩ := exists_magnitude_nearest negative hq
    rw [isZero, h, beq_iff_eq] at hz
    have hpos : 0 < infiniteMagnitude := by decide
    obtain rfl : m = 0 := by omega
    exact rounds_zero_iff.1 hm
  · intro h
    rw [nearest_eq_zero negative hq h]
    cases negative <;> rfl

theorem mul_eq (x y : Binary64) :
    x.mul y = nearest (x.isNegative != y.isNegative) (x.units / one * (y.units / one)) := by
  rw [mul, ofRatio_eq _ _ (Nat.mul_pos one_pos one_pos), Nat.cast_mul, Nat.cast_mul,
    mul_div_mul_comm]

theorem div_eq (x : Binary64) {y : Binary64} (hy : 0 < y.units) :
    x.div y = nearest (x.isNegative != y.isNegative) (x.units / one / (y.units / one)) := by
  rw [div, ofRatio_eq _ _ hy, div_div_div_cancel_right₀ cast_one_ne_zero]

theorem unitsOf_gap (m : Nat) :
    unitsOf (m + 1) + 2 ^ 53 * unitsOf m ≤ 2 ^ 53 * unitsOf (m + 1) := by
  obtain ⟨shift, r, rfl, hr, hs⟩ := exists_shift m
  rw [unitsOf_succ shift r hr hs, unitsOf_eq shift r hr.le hs]
  have h : (r + 1) * 2 ^ shift ≤ 2 ^ 53 * 2 ^ shift := Nat.mul_le_mul_right _ hr
  rw [add_mul, one_mul] at h
  omega

theorem rounds_of_near {m : Nat} {q : ℚ} (hm : m ≠ 0)
    (h : |q - unitsOf m| * 2 ^ 54 < unitsOf m) : Rounds q m := by
  obtain ⟨m, rfl⟩ := Nat.exists_eq_succ_of_ne_zero hm
  have hbelow : (unitsOf (m + 1) + 2 ^ 53 * unitsOf m : ℚ) ≤ 2 ^ 53 * unitsOf (m + 1) := by
    exact_mod_cast unitsOf_gap m
  have habove : (unitsOf (m + 2) + 2 ^ 53 * unitsOf (m + 1) : ℚ) ≤ 2 ^ 53 * unitsOf (m + 2) := by
    exact_mod_cast unitsOf_gap (m + 1)
  have hmono : (unitsOf (m + 1) : ℚ) ≤ unitsOf (m + 2) := by
    exact_mod_cast strictMono_unitsOf.monotone (Nat.le_succ _)
  have hlow := neg_abs_le (q - unitsOf (m + 1))
  have hhigh := le_abs_self (q - unitsOf (m + 1))
  refine ⟨fun _ => ?_, fun _ he => ?_, ?_, fun he => ?_⟩
  · simp only [Nat.succ_eq_add_one, Nat.add_sub_cancel] at *
    linarith
  · simp only [Nat.succ_eq_add_one, Nat.add_sub_cancel] at *
    linarith
  · simp only [Nat.succ_eq_add_one] at *
    linarith
  · simp only [Nat.succ_eq_add_one] at *
    linarith

end JsonCodec.Binary64
