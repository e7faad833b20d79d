import Mathlib
import JsonCodec.Binary64.Basic

set_option autoImplicit false

/-!
# Rounding to doubles

Among finite numbers of one sign the bits below the sign count the doubles in order. A quotient is
rounded to the double whose cell it lies in: the cell ends half way to the neighbours, and its ends
belong to the double of the even count.
-/
namespace JsonCodec.Binary64

/-- The magnitude with given bits, in units of the least positive double. It goes on beyond the
largest finite double as if there were more exponents. -/
def unitsOf (m : Nat) : Nat :=
  (if m < leadingOne then m else leadingOne + m % leadingOne) <<< (m / leadingOne - 1)

theorem units_eq (x : Binary64) : x.units = unitsOf x.magnitude := rfl

theorem leadingOne_eq : leadingOne = 2 ^ 52 := rfl

theorem unitsOf_eq (shift r : Nat) (hr : r ≤ 2 ^ 53) (hs : shift = 0 ∨ 2 ^ 52 ≤ r) :
    unitsOf (shift * leadingOne + r) = r * 2 ^ shift := by
  rw [unitsOf, Nat.shiftLeft_eq, leadingOne_eq]
  rcases Nat.lt_or_ge r (2 ^ 52) with hlow | hlow
  · obtain rfl : shift = 0 := hs.resolve_right (by omega)
    simp only [zero_mul, zero_add, hlow, ↓reduceIte, pow_zero]
    rw [Nat.div_eq_of_lt hlow]
    simp
  · rw [if_neg (by omega)]
    rcases Nat.lt_or_ge r (2 ^ 53) with h | h
    · have hdiv : (shift * 2 ^ 52 + r) / 2 ^ 52 - 1 = shift := by omega
      have hmod : 2 ^ 52 + (shift * 2 ^ 52 + r) % 2 ^ 52 = r := by omega
      rw [hdiv, hmod]
    · have hr' : r = 2 ^ 53 := by omega
      have hdiv : (shift * 2 ^ 52 + r) / 2 ^ 52 - 1 = shift + 1 := by omega
      have hmod : 2 ^ 52 + (shift * 2 ^ 52 + r) % 2 ^ 52 = 2 ^ 52 := by omega
      rw [hdiv, hmod, hr', pow_succ]
      ring

theorem exists_shift (m : Nat) :
    ∃ shift r, m = shift * leadingOne + r ∧ r < 2 ^ 53 ∧ (shift = 0 ∨ 2 ^ 52 ≤ r) := by
  rw [leadingOne_eq]
  rcases Nat.lt_or_ge m (2 ^ 52) with h | h
  · exact ⟨0, m, by omega, by omega, .inl rfl⟩
  · exact ⟨m / 2 ^ 52 - 1, 2 ^ 52 + m % 2 ^ 52, by omega, by omega, .inr (by omega)⟩

theorem unitsOf_succ (shift r : Nat) (hr : r < 2 ^ 53) (hs : shift = 0 ∨ 2 ^ 52 ≤ r) :
    unitsOf (shift * leadingOne + r + 1) = unitsOf (shift * leadingOne + r) + 2 ^ shift := by
  rw [add_assoc, unitsOf_eq shift (r + 1) (by omega) (hs.imp_right (by omega)),
    unitsOf_eq shift r (by omega) hs]
  ring

theorem unitsOf_pred (shift r : Nat) (h0 : r ≠ 0) (hr : r ≤ 2 ^ 53) (hs : shift = 0 ∨ 2 ^ 52 < r) :
    unitsOf (shift * leadingOne + r) = unitsOf (shift * leadingOne + r - 1) + 2 ^ shift := by
  have h := unitsOf_succ shift (r - 1) (by omega) (hs.imp_right (by omega))
  rwa [show shift * leadingOne + (r - 1) + 1 = shift * leadingOne + r by omega,
    show shift * leadingOne + (r - 1) = shift * leadingOne + r - 1 by omega] at h

theorem unitsOf_succ_le (shift r : Nat) (hr : r ≤ 2 ^ 53) (hs : shift = 0 ∨ 2 ^ 52 ≤ r) :
    (r + 1) * 2 ^ shift ≤ unitsOf (shift * leadingOne + r + 1) := by
  rcases Nat.lt_or_ge r (2 ^ 53) with h | h
  · rw [unitsOf_succ shift r h hs, unitsOf_eq shift r hr hs, add_mul, one_mul]
  · obtain rfl : r = 2 ^ 53 := by omega
    have he : shift * leadingOne + 2 ^ 53 + 1 = (shift + 1) * leadingOne + (2 ^ 52 + 1) := by
      rw [leadingOne_eq]
      omega
    rw [he, unitsOf_eq (shift + 1) (2 ^ 52 + 1) (by omega) (.inr (by omega)), pow_succ 2 shift]
    omega

theorem even_count_iff (shift r : Nat) : Even (shift * leadingOne + r) ↔ Even r := by
  have h : Even (shift * leadingOne) := Even.mul_left (by decide) shift
  rw [Nat.even_add]
  tauto

theorem strictMono_unitsOf : StrictMono unitsOf := by
  apply strictMono_nat_of_lt_succ
  intro m
  obtain ⟨shift, r, rfl, hr, hs⟩ := exists_shift m
  rw [unitsOf_succ shift r hr hs]
  have h : 0 < 2 ^ shift := by positivity
  omega

/-- A number of units lies in the cell of the double with some count. -/
structure Rounds (q : ℚ) (m : Nat) : Prop where
  lower : m ≠ 0 → (unitsOf (m - 1) + unitsOf m : ℚ) ≤ 2 * q
  lower_even : m ≠ 0 → (unitsOf (m - 1) + unitsOf m : ℚ) = 2 * q → Even m
  upper : 2 * q ≤ (unitsOf m + unitsOf (m + 1) : ℚ)
  upper_even : 2 * q = (unitsOf m + unitsOf (m + 1) : ℚ) → Even m

theorem Rounds.le {q q' : ℚ} {m m' : Nat} (h : Rounds q m) (h' : Rounds q' m') (hq : q ≤ q') :
    m ≤ m' := by
  by_contra hlt
  have hm : m' + 1 ≤ m := Nat.lt_of_not_le hlt
  have h₁ : (unitsOf m' : ℚ) ≤ unitsOf (m - 1) := by
    exact_mod_cast strictMono_unitsOf.monotone (by omega)
  have h₂ : (unitsOf (m' + 1) : ℚ) ≤ unitsOf m := by
    exact_mod_cast strictMono_unitsOf.monotone hm
  have hl := h.lower (by omega)
  have hu := h'.upper
  -- no room is left between the two cells, so both ends would be even
  have e₁ : (unitsOf (m - 1) + unitsOf m : ℚ) = 2 * q := by linarith
  have e₂ : 2 * q' = (unitsOf m' + unitsOf (m' + 1) : ℚ) := by linarith
  have e₃ : unitsOf (m' + 1) = unitsOf m := by
    have : (unitsOf (m' + 1) : ℚ) = unitsOf m := by linarith
    exact_mod_cast this
  obtain rfl := strictMono_unitsOf.injective e₃
  have h₃ := h.lower_even (by omega) e₁
  have h₄ := h'.upper_even e₂
  exact absurd h₃ (by simpa [Nat.even_add_one] using h₄)

theorem Rounds.unique {q : ℚ} {m m' : Nat} (h : Rounds q m) (h' : Rounds q m') : m = m' :=
  Nat.le_antisymm (h.le h' le_rfl) (h'.le h le_rfl)

theorem rounds_unitsOf (m : Nat) : Rounds (unitsOf m) m := by
  have hu : (unitsOf m : ℚ) < unitsOf (m + 1) := by
    exact_mod_cast strictMono_unitsOf (Nat.lt_succ_self m)
  have hl : m ≠ 0 → (unitsOf (m - 1) : ℚ) < unitsOf m := fun h => by
    exact_mod_cast strictMono_unitsOf (by omega)
  exact ⟨fun h => by linarith [hl h], fun h e => absurd e (by linarith [hl h]), by linarith,
    fun e => absurd e (by linarith)⟩

theorem roundHalfEven_spec (a : Nat) {b : Nat} (hb : 0 < b) :
    2 * (roundHalfEven a b * b) ≤ 2 * a + b ∧ 2 * a ≤ 2 * (roundHalfEven a b * b) + b ∧
      ((2 * (roundHalfEven a b * b) = 2 * a + b ∨ 2 * a = 2 * (roundHalfEven a b * b) + b) →
        Even (roundHalfEven a b)) := by
  have hm := Nat.mod_lt a hb
  have hdiv := Nat.div_add_mod' a b
  have hup : (a / b + 1) * b = a / b * b + b := by ring
  simp only [roundHalfEven, Bool.or_eq_true, Bool.and_eq_true, decide_eq_true_eq, beq_iff_eq]
  split
  · rename_i h
    rw [hup, Nat.even_iff]
    generalize a / b * b = p at *
    omega
  · rename_i h
    rw [Nat.even_iff]
    generalize a / b * b = p at *
    omega

theorem div_le_roundHalfEven (a b : Nat) :
    a / b ≤ roundHalfEven a b ∧ roundHalfEven a b ≤ a / b + 1 := by
  simp only [roundHalfEven]
  split <;> omega

def countOf (a b : Nat) : Nat :=
  let shift := Nat.log2 (a / b) - 52
  shift * leadingOne + roundHalfEven a (b <<< shift)

theorem ofRatio_def (negative : Bool) (num den : Nat) :
    ofRatio negative num den =
      ofMagnitude negative (min (countOf (num * one) den) infiniteMagnitude) := rfl

theorem countOf_spec (a : Nat) {b : Nat} (hb : 0 < b) :
    ∃ shift r, countOf a b = shift * leadingOne + r ∧ r ≤ 2 ^ 53 ∧
      (shift = 0 ∨ 2 ^ 52 ≤ r ∧ 2 ^ 52 * 2 ^ shift * b ≤ a) ∧
      r = roundHalfEven a (b * 2 ^ shift) := by
  have hpos : 0 < b * 2 ^ (Nat.log2 (a / b) - 52) := by positivity
  have hbounds := div_le_roundHalfEven a (b * 2 ^ (Nat.log2 (a / b) - 52))
  have hlt : a / b < 2 ^ (Nat.log2 (a / b) + 1) := Nat.lt_log2_self
  have hup : a / (b * 2 ^ (Nat.log2 (a / b) - 52)) < 2 ^ 53 := by
    rw [← Nat.div_div_eq_div_mul, Nat.div_lt_iff_lt_mul (by positivity), ← pow_add]
    exact hlt.trans_le (Nat.pow_le_pow_right (by decide) (by omega))
  refine ⟨Nat.log2 (a / b) - 52, _, ?_, by omega, ?_, rfl⟩
  · rw [countOf, Nat.shiftLeft_eq]
  · rcases Nat.eq_zero_or_pos (Nat.log2 (a / b) - 52) with h | h
    · exact .inl h
    · have hne : a / b ≠ 0 := by
        intro h0
        simp [h0] at h
      have hle : 2 ^ 52 * 2 ^ (Nat.log2 (a / b) - 52) ≤ a / b := by
        rw [← pow_add, Nat.add_sub_cancel' (by omega)]
        exact Nat.log2_self_le hne
      refine .inr ⟨?_, (Nat.le_div_iff_mul_le hb).1 hle⟩
      refine le_trans ?_ hbounds.1
      rw [← Nat.div_div_eq_div_mul, Nat.le_div_iff_mul_le (by positivity)]
      exact hle

/-- A quotient rounded to a multiple of a step is at most half a step off. -/
theorem roundHalfEven_quotient (a : Nat) {b step : Nat} (hb : 0 < b) (hs : 0 < step) :
    2 * (roundHalfEven a (b * step) * step : ℚ) ≤ 2 * (a / b) + step ∧
      2 * ((a : ℚ) / b) ≤ 2 * (roundHalfEven a (b * step) * step) + step ∧
      (2 * (roundHalfEven a (b * step) * step : ℚ) = 2 * (a / b) + step ∨
        2 * ((a : ℚ) / b) = 2 * (roundHalfEven a (b * step) * step) + step →
          Even (roundHalfEven a (b * step))) := by
  obtain ⟨hlow, hhigh, heven⟩ := roundHalfEven_spec a (Nat.mul_pos hb hs)
  generalize roundHalfEven a (b * step) = r at hlow hhigh heven ⊢
  have hb' : (0 : ℚ) < b := by exact_mod_cast hb
  have hq : (a : ℚ) = a / b * b := by field_simp
  generalize (a : ℚ) / b = q at hq ⊢
  refine ⟨?_, ?_, fun h => heven (h.imp (fun h => ?_) fun h => ?_)⟩
  · have h : 2 * (r * (b * step) : ℚ) ≤ 2 * a + b * step := by exact_mod_cast hlow
    rw [hq] at h
    nlinarith
  · have h : 2 * a ≤ 2 * (r * (b * step) : ℚ) + b * step := by exact_mod_cast hhigh
    rw [hq] at h
    nlinarith
  · have h' : 2 * (r * (b * step) : ℚ) = 2 * a + b * step := by
      rw [hq]
      linear_combination b * h
    exact_mod_cast h'
  · have h' : 2 * a = 2 * (r * (b * step) : ℚ) + b * step := by
      rw [hq]
      linear_combination b * h
    exact_mod_cast h'

theorem unitsOf_below {shift r : Nat} (hr : r ≤ 2 ^ 53) (hs : shift = 0 ∨ 2 ^ 52 ≤ r)
    (h0 : shift * leadingOne + r ≠ 0) :
    unitsOf (shift * leadingOne + r - 1) + 2 ^ shift = r * 2 ^ shift ∨
      (shift ≠ 0 ∧ r = 2 ^ 52) ∧ unitsOf (shift * leadingOne + r - 1) < r * 2 ^ shift := by
  by_cases hgap : shift = 0 ∨ 2 ^ 52 < r
  · left
    have hr0 : r ≠ 0 := by
      rintro rfl
      obtain rfl : shift = 0 := hs.resolve_right (by decide)
      exact h0 (by simp)
    rw [← unitsOf_eq shift r hr hs, unitsOf_pred shift r hr0 hr hgap]
  · right
    refine ⟨⟨fun h => hgap (.inl h), by omega⟩, ?_⟩
    rw [← unitsOf_eq shift r hr hs]
    exact strictMono_unitsOf (by omega)

theorem rounds_countOf (a : Nat) {b : Nat} (hb : 0 < b) : Rounds ((a : ℚ) / b) (countOf a b) := by
  obtain ⟨shift, r, hm, hr, hs, hround⟩ := countOf_spec a hb
  have hs' : shift = 0 ∨ 2 ^ 52 ≤ r := hs.imp_right And.left
  obtain ⟨hlow, hhigh, heven⟩ := roundHalfEven_quotient a hb (Nat.two_pow_pos shift)
  rw [← hround, ← even_count_iff shift, ← hm] at heven
  rw [← hround] at hlow hhigh
  push_cast at hlow hhigh heven
  have hu : (unitsOf (countOf a b) : ℚ) = r * 2 ^ shift := by
    rw [hm, unitsOf_eq shift r hr hs']
    push_cast
    rfl
  have hnext : ((r : ℚ) + 1) * 2 ^ shift ≤ unitsOf (countOf a b + 1) := by
    rw [hm]
    exact_mod_cast unitsOf_succ_le shift r hr hs'
  -- below the count lies a gap of the same width, unless the number is at least the double itself
  have hprev (hne : countOf a b ≠ 0) :
      (unitsOf (countOf a b - 1) + 2 ^ shift : ℚ) = r * 2 ^ shift ∨
        (unitsOf (countOf a b - 1) : ℚ) < r * 2 ^ shift ∧ (r * 2 ^ shift : ℚ) ≤ a / b := by
    rw [hm] at hne ⊢
    refine (unitsOf_below hr hs' hne).imp (fun h => by exact_mod_cast h) ?_
    rintro ⟨⟨hshift, rfl⟩, h⟩
    refine ⟨by exact_mod_cast h, ?_⟩
    rw [le_div_iff₀ (by exact_mod_cast hb)]
    exact_mod_cast (hs.resolve_left hshift).2
  refine ⟨fun hne => ?_, fun hne he => ?_, ?_, fun he => ?_⟩
  · rcases hprev hne with h | ⟨h, h'⟩ <;> linarith
  · rcases hprev hne with h | ⟨h, h'⟩
    · exact heven (.inl (by linarith))
    · linarith
  · linarith
  · exact heven (.inr (by linarith))

def nearest (negative : Bool) (q : ℚ) : Binary64 := ofRatio negative q.num.natAbs q.den

theorem ofRatio_eq_of_rounds (negative : Bool) {num den m : Nat} (hd : 0 < den)
    (h : Rounds ((num : ℚ) / den * one) m) :
    ofRatio negative num den = ofMagnitude negative (min m infiniteMagnitude) := by
  have hc := rounds_countOf (num * one) hd
  rw [Nat.cast_mul, mul_div_right_comm] at hc
  rw [ofRatio_def, hc.unique h]

theorem natAbs_num_div_den {q : ℚ} (hq : 0 ≤ q) : (q.num.natAbs : ℚ) / q.den = q := by
  rw [Nat.cast_natAbs, abs_of_nonneg (Rat.num_nonneg.2 hq), Rat.num_div_den]

theorem nearest_eq_of_rounds (negative : Bool) {q : ℚ} {m : Nat} (hq : 0 ≤ q)
    (h : Rounds (q * one) m) :
    nearest negative q = ofMagnitude negative (min m infiniteMagnitude) := by
  apply ofRatio_eq_of_rounds negative q.den_pos
  rwa [natAbs_num_div_den hq]

theorem exists_rounds {q : ℚ} (hq : 0 ≤ q) : ∃ m, Rounds q m := by
  have h := rounds_countOf q.num.natAbs q.den_pos
  rw [natAbs_num_div_den hq] at h
  exact ⟨_, h⟩

/-- The double depends on the number alone and not on the fraction it is given as. -/
theorem ofRatio_eq (negative : Bool) (num : Nat) {den : Nat} (hd : 0 < den) :
    ofRatio negative num den = nearest negative (num / den) := by
  have hq : (0 : ℚ) ≤ (num : ℚ) / den := by positivity
  obtain ⟨m, hm⟩ := exists_rounds (mul_nonneg hq (Nat.cast_nonneg one))
  rw [ofRatio_eq_of_rounds negative hd hm, nearest_eq_of_rounds negative hq hm]

end JsonCodec.Binary64
