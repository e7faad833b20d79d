import Mathlib
import JsonCodec.Proofs.Decimal.Digits

set_option autoImplicit false

namespace JsonCodec.Decimal

theorem fill_succ (places n : Nat) (tail : Bytes) :
    fill (places + 1) n tail = fill places (n / 10) (Byte.ofDigit (n % 10) :: tail) := by
  induction places using Nat.twoStepInduction generalizing n tail with
  | zero => rfl
  | one =>
    have h : n % 100 / 10 = n / 10 % 10 := by omega
    simp [fill, h]
  | more places ih _ =>
    have h₁ : n % 100 / 10 = n / 10 % 10 := by omega
    have h₂ : n / 10 % 100 / 10 = n / 100 % 10 := by omega
    have h₃ : n / 100 / 10 = n / 10 / 100 := by omega
    rw [fill, ih, fill, h₁, h₂, h₃]

theorem fill_eq_ofNat (places n : Nat) (tail : Bytes) (hp : places ≠ 0) (hn : n < 10 ^ places)
    (hl : places = 1 ∨ 10 ^ (places - 1) ≤ n) : fill places n tail = ofNat n ++ tail := by
  induction places generalizing n tail with
  | zero => exact absurd rfl hp
  | succ places ih =>
    rw [fill_succ, ofNat_eq]
    rcases Nat.eq_zero_or_pos places with rfl | hpos
    · have h : n < 10 := by simpa using hn
      rw [if_pos h, Nat.mod_eq_of_lt h]
      rfl
    · have hl : 10 ^ places ≤ n := by
        rcases hl with h | h
        · omega
        · exact h
      have h10 : 10 ^ (places - 1) * 10 = 10 ^ places := by
        rw [← pow_succ, Nat.sub_add_cancel hpos]
      have h1 : 1 ≤ 10 ^ (places - 1) := Nat.one_le_pow _ _ (by decide)
      rw [pow_succ] at hn
      rw [if_neg (by omega), ih (n / 10) _ (by omega) (by omega) (.inr (by omega)),
        List.append_assoc]
      rfl

theorem ofNat_append_fill (u l places : Nat) (tail : Bytes) (hu : 0 < u) (hl : l < 10 ^ places) :
    ofNat u ++ fill places l tail = ofNat (u * 10 ^ places + l) ++ tail := by
  induction places generalizing l tail with
  | zero =>
    obtain rfl : l = 0 := by simpa using hl
    simp [fill]
  | succ places ih =>
    have h1 : 1 ≤ 10 ^ places := Nat.one_le_pow _ _ (by decide)
    have hm : 10 ≤ u * 10 ^ (places + 1) := by
      rw [pow_succ]
      nlinarith
    have hdiv : (u * 10 ^ (places + 1) + l) / 10 = u * 10 ^ places + l / 10 := by
      rw [pow_succ, ← mul_assoc]
      omega
    have hmod : (u * 10 ^ (places + 1) + l) % 10 = l % 10 := by
      rw [pow_succ, ← mul_assoc]
      omega
    rw [pow_succ] at hl
    rw [fill_succ, ih (l / 10) _ (by omega), ofNat_eq (u * 10 ^ (places + 1) + l),
      if_neg (by omega), hdiv, hmod, List.append_assoc]
    rfl

/-- The guess from the bit length is right or one too small, and never larger than the number. -/
theorem guess_spec (k : Nat) (hk : k < 64) :
    2 ^ (k + 1) ≤ 10 ^ (((k + 1) * 1233) >>> 12 + 1) ∧
      (((k + 1) * 1233) >>> 12 ≠ 0 → 10 ^ (((k + 1) * 1233) >>> 12 - 1) ≤ 2 ^ k) := by
  revert k
  decide +kernel

theorem log2_or_one {n : Nat} (h : 0 < n) :
    2 ^ Nat.log2 (n ||| 1) ≤ n ∧ n < 2 ^ (Nat.log2 (n ||| 1) + 1) := by
  have hne : n ||| 1 ≠ 0 := by
    intro h0
    have := Nat.left_le_or (n := n) (m := 1)
    omega
  have hle := Nat.log2_self_le hne
  have hlt : n ||| 1 < 2 ^ (Nat.log2 (n ||| 1) + 1) := Nat.lt_log2_self
  have hn : n ≤ n ||| 1 := Nat.left_le_or
  have hhalf : (n ||| 1) / 2 = n / 2 := by
    rw [Nat.or_div_two]
    simp
  refine ⟨?_, by omega⟩
  rcases Nat.eq_zero_or_pos (Nat.log2 (n ||| 1)) with h0 | hpos
  · rw [h0]
    omega
  · have h2 : 2 ^ (Nat.log2 (n ||| 1) - 1) * 2 = 2 ^ Nat.log2 (n ||| 1) := by
      rw [← pow_succ, Nat.sub_add_cancel hpos]
    omega

theorem wordDigits_spec (n : UInt64) :
    wordDigits n ≠ 0 ∧ n.toNat < 10 ^ wordDigits n ∧
      (wordDigits n = 1 ∨ 10 ^ (wordDigits n - 1) ≤ n.toNat) := by
  rcases Nat.eq_zero_or_pos n.toNat with h0 | hpos
  · obtain rfl : n = 0 := UInt64.toNat_inj.1 h0
    decide
  · obtain ⟨hlow, hhigh⟩ := log2_or_one hpos
    have hk : Nat.log2 (n.toNat ||| 1) < 64 := by
      rw [Nat.log2_lt (by have := Nat.left_le_or (n := n.toNat) (m := 1); omega)]
      exact Nat.or_lt_two_pow n.toNat_lt (by decide)
    obtain ⟨hup, hdown⟩ := guess_spec _ hk
    have hw : wordDigits n =
        if n.toNat < threshold (((Nat.log2 (n.toNat ||| 1) + 1) * 1233) >>> 12) then
          ((Nat.log2 (n.toNat ||| 1) + 1) * 1233) >>> 12
        else ((Nat.log2 (n.toNat ||| 1) + 1) * 1233) >>> 12 + 1 := rfl
    generalize ((Nat.log2 (n.toNat ||| 1) + 1) * 1233) >>> 12 = guess at hup hdown hw
    have ht : guess ≠ 0 → threshold guess = 10 ^ guess := fun h => if_neg h
    rw [hw]
    split
    · rename_i h
      have hg : guess ≠ 0 := by
        rintro rfl
        simp [threshold] at h
      exact ⟨hg, by rwa [ht hg] at h, .inr ((hdown hg).trans hlow)⟩
    · rename_i h
      refine ⟨Nat.succ_ne_zero _, hhigh.trans_le hup, ?_⟩
      by_cases hg : guess = 0
      · exact .inl (by rw [hg])
      · rw [ht hg] at h
        exact .inr (Nat.le_of_not_lt h)

theorem ofWord_eq (n : UInt64) : ofWord n = ofNat n.toNat := by
  obtain ⟨hp, hn, hl⟩ := wordDigits_spec n
  rw [ofWord, fill_eq_ofNat _ _ _ hp hn hl, List.append_nil]

theorem toNat_toUInt64 {n : Nat} (h : n < wordLimit) : n.toUInt64.toNat = n := by
  rw [wordLimit] at h
  simp
  omega

/-- Limbs of nineteen digits, all but the first filled up with zeros, are the numeral of the whole. -/
theorem ofNat_append_lowerLimb (u l : Nat) (hu : 0 < u) (hl : l < limb) :
    ofNat u ++ lowerLimb l.toUInt64 = ofNat (u * limb + l) := by
  have hl' : l < wordLimit := hl.trans (by decide)
  have h := ofNat_append_fill u l 19 [] hu hl
  rw [List.append_nil] at h
  rw [lowerLimb, toNat_toUInt64 hl', h]
  rfl

theorem ofWide_eq (n : BitVec 128) : ofWide n = ofNat n.toNat := by
  have hlimb : 0 < limb := by decide
  have hlow (m : Nat) : m % limb < limb := Nat.mod_lt m hlimb
  have hsplit (m : Nat) : m / limb * limb + m % limb = m := Nat.div_add_mod' m limb
  have hpos {m : Nat} (h : ¬ m < wordLimit) : 0 < m / limb :=
    Nat.div_pos ((by decide : limb ≤ wordLimit).trans (Nat.le_of_not_lt h)) hlimb
  simp only [ofWide]
  split
  · rename_i h
    rw [ofWord_eq, toNat_toUInt64 h]
  · rename_i h
    split
    · rename_i hu
      rw [ofWord_eq, toNat_toUInt64 hu, ofNat_append_lowerLimb _ _ (hpos h) (hlow _), hsplit]
    · rename_i hu
      have hhigh : n.toNat / limb / limb < wordLimit := by
        rw [Nat.div_div_eq_div_mul, Nat.div_lt_iff_lt_mul (by decide)]
        exact n.isLt.trans (by decide)
      rw [ofWord_eq, toNat_toUInt64 hhigh, ofNat_append_lowerLimb _ _ (hpos hu) (hlow _), hsplit,
        ofNat_append_lowerLimb _ _ (hpos h) (hlow _), hsplit]

def ofInt (n : Int) : Bytes := if n < 0 then Byte.minus :: ofNat n.natAbs else ofNat n.natAbs

/-- Negation in two's complement gives the magnitude of every negative number, the least one
included. -/
theorem ofSignedWide_eq (n : BitVec 128) : ofSignedWide n = ofInt n.toInt := by
  have hn := n.isLt
  have hneg : (0 - n).toNat = (2 ^ 128 - n.toNat) % 2 ^ 128 := by simp
  have hint := BitVec.toInt_eq_toNat_cond n
  rw [ofSignedWide, ofInt, BitVec.msb_eq_toInt, ofWide_eq, ofWide_eq]
  by_cases h : n.toInt < 0
  · have hm : (0 - n).toNat = n.toInt.natAbs := by
      split at hint <;> omega
    simp only [h, decide_true, ↓reduceIte, hm]
  · have hm : n.toNat = n.toInt.natAbs := by
      split at hint <;> omega
    simp only [h, decide_false, Bool.false_eq_true, ↓reduceIte, hm]

theorem ofSignedWord_eq (n : Int64) : ofSignedWord n = ofInt n.toInt := by
  have hn := n.toUInt64.toNat_lt
  have hneg : (0 - n.toUInt64).toNat = (2 ^ 64 - n.toUInt64.toNat) % 2 ^ 64 := by simp
  have hint : n.toInt = if 2 * n.toUInt64.toNat < 2 ^ 64 then (n.toUInt64.toNat : Int)
      else (n.toUInt64.toNat : Int) - (2 ^ 64 : Nat) := BitVec.toInt_eq_toNat_cond n.toBitVec
  rw [ofSignedWord, ofInt, ofWord_eq, ofWord_eq]
  by_cases h : n.toInt < 0
  · have hm : (0 - n.toUInt64).toNat = n.toInt.natAbs := by
      split at hint <;> omega
    rw [if_pos (Int64.lt_iff_toInt_lt.2 h), if_pos h, hm]
  · have hm : n.toUInt64.toNat = n.toInt.natAbs := by
      split at hint <;> omega
    rw [if_neg fun hlt => h (Int64.lt_iff_toInt_lt.1 hlt), if_neg h, hm]

end JsonCodec.Decimal
