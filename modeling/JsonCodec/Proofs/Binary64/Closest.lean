import Mathlib
import JsonCodec.Proofs.Binary64.Nearest

set_option autoImplicit false

namespace JsonCodec.Binary64

theorem Rounds.dist_le {q : ℚ} {m : Nat} (h : Rounds q m) (m' : Nat) :
    |(unitsOf m : ℚ) - q| ≤ |(unitsOf m' : ℚ) - q| := by
  rcases lt_trichotomy m' m with hlt | rfl | hlt
  · have hpred : (unitsOf m' : ℚ) ≤ unitsOf (m - 1) := by
      exact_mod_cast strictMono_unitsOf.monotone (Nat.le_pred_of_lt hlt)
    have hmono : (unitsOf m' : ℚ) ≤ unitsOf m := by
      exact_mod_cast (strictMono_unitsOf hlt).le
    have hlower := h.lower (Nat.ne_zero_of_lt hlt)
    have habs := neg_abs_le ((unitsOf m' : ℚ) - q)
    exact abs_le.2 ⟨by linarith, by linarith⟩
  · exact le_rfl
  · have hsucc : (unitsOf (m + 1) : ℚ) ≤ unitsOf m' := by
      exact_mod_cast strictMono_unitsOf.monotone hlt
    have hmono : (unitsOf m : ℚ) ≤ unitsOf m' := by
      exact_mod_cast (strictMono_unitsOf hlt).le
    have hupper := h.upper
    have habs := le_abs_self ((unitsOf m' : ℚ) - q)
    exact abs_le.2 ⟨by linarith, by linarith⟩

/-- Only the end of a cell is as close to a neighbour as to the double of the cell. -/
theorem Rounds.even_of_dist_eq {q : ℚ} {m m' : Nat} (h : Rounds q m) (hne : m' ≠ m)
    (heq : |(unitsOf m : ℚ) - q| = |(unitsOf m' : ℚ) - q|) : Even m := by
  have hunits : (unitsOf m : ℚ) ≠ unitsOf m' := by
    exact_mod_cast strictMono_unitsOf.injective.ne hne.symm
  have hsum : (unitsOf m : ℚ) + unitsOf m' = 2 * q := by
    rcases abs_eq_abs.1 heq with hsame | hmirror
    · exact absurd (sub_left_injective hsame) hunits
    · linarith
  rcases Nat.lt_or_gt_of_ne hne with hlt | hlt
  · have hpred : (unitsOf m' : ℚ) ≤ unitsOf (m - 1) := by
      exact_mod_cast strictMono_unitsOf.monotone (Nat.le_pred_of_lt hlt)
    have hlower := h.lower (Nat.ne_zero_of_lt hlt)
    exact h.lower_even (Nat.ne_zero_of_lt hlt) (by linarith)
  · have hsucc : (unitsOf (m + 1) : ℚ) ≤ unitsOf m' := by
      exact_mod_cast strictMono_unitsOf.monotone hlt
    have hupper := h.upper
    exact h.upper_even (by linarith)

def signed (negative : Bool) (q : ℚ) : ℚ := if negative then -q else q

def toRat (x : Binary64) : ℚ := signed x.isNegative (x.units / one)

theorem abs_signed_sub (negative : Bool) (a q : ℚ) :
    |signed negative a - signed negative q| = |a - q| := by
  cases negative with
  | true => rw [signed, signed, if_pos rfl, if_pos rfl, neg_sub_neg, abs_sub_comm]
  | false => rfl

theorem abs_signed_not_sub (negative : Bool) {a q : ℚ} (ha : 0 ≤ a) (hq : 0 ≤ q) :
    |signed (!negative) a - signed negative q| = a + q := by
  cases negative with
  | true =>
    change |a - -q| = a + q
    rw [sub_neg_eq_add, abs_of_nonneg (add_nonneg ha hq)]
  | false =>
    change |-a - q| = a + q
    rw [← neg_add', abs_neg, abs_of_nonneg (add_nonneg ha hq)]

theorem abs_units_sub (n : Nat) (q : ℚ) : |(n / one : ℚ) - q| = |(n : ℚ) - q * one| / one := by
  rw [← abs_of_pos cast_one_pos, ← abs_div, abs_of_pos cast_one_pos, sub_div,
    mul_div_cancel_right₀ _ cast_one_ne_zero]

/-- No finite double is closer to a number, and where another one is as close, the count of this one
is even. -/
structure IsClosest (x : Binary64) (q : ℚ) : Prop where
  finite : x.isFinite = true
  dist_le : ∀ y : Binary64, y.isFinite = true → |x.toRat - q| ≤ |y.toRat - q|
  even : ∀ y : Binary64, y.isFinite = true → y.toRat ≠ x.toRat →
    |x.toRat - q| = |y.toRat - q| → Even x.magnitude

theorem toRat_ofMagnitude (negative : Bool) {m : Nat} (h : m < signBit) :
    (ofMagnitude negative m).toRat = signed negative (unitsOf m / one) := by
  rw [toRat, isNegative_ofMagnitude negative h, units_eq, magnitude_ofMagnitude negative h]

theorem unitsOf_zero : (unitsOf 0 : ℚ) = 0 := by exact_mod_cast (by decide : unitsOf 0 = 0)

theorem abs_unitsOf_zero_sub {q : ℚ} (hq : 0 ≤ q) : |(unitsOf 0 : ℚ) - q * one| / one = q := by
  rw [unitsOf_zero, zero_sub, abs_neg, abs_of_nonneg (mul_nonneg hq cast_one_pos.le),
    mul_div_cancel_right₀ _ cast_one_ne_zero]

theorem Rounds.dist_le_add {q : ℚ} {m : Nat} (hq : 0 ≤ q) (h : Rounds (q * one) m) (n : Nat) :
    |(unitsOf m / one : ℚ) - q| ≤ n / one + q := by
  calc |(unitsOf m / one : ℚ) - q| = |(unitsOf m : ℚ) - q * one| / one := abs_units_sub _ q
    _ ≤ |(unitsOf 0 : ℚ) - q * one| / one :=
      div_le_div_of_nonneg_right (h.dist_le 0) cast_one_pos.le
    _ = q := abs_unitsOf_zero_sub hq
    _ ≤ n / one + q := le_add_of_nonneg_left (div_nonneg n.cast_nonneg cast_one_pos.le)

theorem Rounds.even_of_dist_eq_add {q : ℚ} {m n : Nat} (hq : 0 ≤ q) (h : Rounds (q * one) m)
    (heq : |(unitsOf m / one : ℚ) - q| = n / one + q) : Even m := by
  by_cases hm : m = 0
  · rw [hm]
    exact Even.zero
  · have hbound : |(unitsOf m / one : ℚ) - q| ≤ (0 : Nat) / one + q := h.dist_le_add hq 0
    have hn : (0 : ℚ) ≤ n / one := div_nonneg n.cast_nonneg cast_one_pos.le
    rw [Nat.cast_zero, zero_div, zero_add, heq] at hbound
    have hzero : |(unitsOf m / one : ℚ) - q| = q := heq.trans (by linarith only [hn, hbound])
    have hq' : |(unitsOf m : ℚ) - q * one| / one = |(unitsOf 0 : ℚ) - q * one| / one := by
      rw [abs_unitsOf_zero_sub hq, ← abs_units_sub, hzero]
    exact h.even_of_dist_eq (Ne.symm hm) ((div_left_inj' cast_one_ne_zero).1 hq')

theorem abs_toRat_sub (y : Binary64) (negative : Bool) {q : ℚ} (hq : 0 ≤ q) :
    |y.toRat - signed negative q| =
      if y.isNegative = negative then |(y.units / one : ℚ) - q| else y.units / one + q := by
  have hunits : (0 : ℚ) ≤ y.units / one := by positivity
  rw [toRat]
  split_ifs with hsign
  · rw [hsign, abs_signed_sub]
  · rw [Bool.eq_not_of_ne hsign, abs_signed_not_sub negative hunits hq]

theorem isClosest_nearest (negative : Bool) {q : ℚ} (hq : 0 ≤ q) (h : q < overflowLimit) :
    IsClosest (nearest negative q) (signed negative q) := by
  obtain ⟨m, hm, hnearest⟩ := exists_nearest hq
  have hfinite := isFinite_nearest negative hq h
  have hlt : min m infiniteMagnitude < signBit :=
    (Nat.min_le_right _ _).trans_lt infiniteMagnitude_lt
  have hmin : min m infiniteMagnitude = m := by
    rw [hnearest, isFinite, magnitude_ofMagnitude negative hlt, decide_eq_true_eq] at hfinite
    omega
  rw [hmin] at hlt hnearest
  have hself : |(nearest negative q).toRat - signed negative q| = |(unitsOf m / one : ℚ) - q| := by
    rw [hnearest, toRat_ofMagnitude negative hlt, abs_signed_sub]
  refine ⟨hfinite, fun y _ => ?_, fun y _ hne heq => ?_⟩
  · rw [hself, abs_toRat_sub y negative hq]
    split_ifs with hsign
    · rw [abs_units_sub, abs_units_sub]
      exact div_le_div_of_nonneg_right (hm.dist_le y.magnitude) cast_one_pos.le
    · exact hm.dist_le_add hq y.units
  · rw [hself, abs_toRat_sub y negative hq] at heq
    rw [hnearest, magnitude_ofMagnitude negative hlt]
    rw [hnearest, toRat_ofMagnitude negative hlt, toRat] at hne
    split_ifs at heq with hsign
    · have hmag : y.magnitude ≠ m := by
        rintro rfl
        exact hne (by rw [hsign, units_eq])
      rw [abs_units_sub, abs_units_sub, div_left_inj' cast_one_ne_zero] at heq
      exact hm.even_of_dist_eq hmag heq
    · exact hm.even_of_dist_eq_add hq heq

end JsonCodec.Binary64
