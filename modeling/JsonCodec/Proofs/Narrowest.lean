import Mathlib
import JsonCodec.Proofs.Binary64.Closest
import JsonCodec.Proofs.Value.Normal

set_option autoImplicit false

namespace JsonCodec

namespace Grammar.Numeral

def toRat (n : Numeral) : ℚ := Binary64.signed n.negative n.magnitude

theorem toRat_integral {n : Numeral} (h : n.isIntegral = true) : n.toRat = n.integer := by
  rw [toRat, magnitude_integral h, integer, Binary64.signed, JsonCodec.Numeral.signed]
  split_ifs
  · rw [Int.cast_neg, Int.cast_natCast]
  · rw [Int.cast_natCast]

def DenotesInteger (text : Bytes) (z : Int) : Prop :=
  ∃ n : Numeral, n.text = text ∧ n.isIntegral = true ∧ n.toRat = z

/-- A numeral that no integer is made of. -/
def IsApproximated (big : Option BigInteger) (n : Numeral) : Prop :=
  n.isIntegral = true → big = none ∧ (n.toRat < -2 ^ 127 ∨ 2 ^ 128 ≤ n.toRat)

end Grammar.Numeral

open Grammar.Numeral

namespace Value

theorem ofNumeral?_of_denotes (big : Option BigInteger) {text : Bytes} {z : Int}
    (h : DenotesInteger text z) :
    ofNumeral? big text = match ofInteger? z with
      | some v => some v
      | none => match big with
        | some build => some (build text)
        | none => Numeral.floatValue? text := by
  obtain ⟨n, rfl, hi, hz⟩ := h
  rw [toRat_integral hi, Int.cast_inj] at hz
  subst hz
  exact ofNumeral?_integral big hi

theorem exists_int64 {z : Int} (h : -2 ^ 63 ≤ z) (h' : z < 2 ^ 63) :
    ∃ m : Int64, m.toInt = z ∧ ofInteger? z = some (.int64 m) := by
  have hv := ofInteger?_int64 h h'
  exact ⟨_, Option.some.inj (integer_ofInteger? hv), hv⟩

theorem exists_uint64 {z : Int} (h : 2 ^ 63 ≤ z) (h' : z < 2 ^ 64) :
    ∃ m : UInt64, m.toNat = z ∧ ofInteger? z = some (.uint64 m) := by
  have hv := ofInteger?_uint64 h h'
  exact ⟨_, Option.some.inj (integer_ofInteger? hv), hv⟩

theorem exists_int128 {z : Int} (h : z < -2 ^ 63 ∧ -2 ^ 127 ≤ z ∨ 2 ^ 64 ≤ z ∧ z < 2 ^ 127) :
    ∃ m : BitVec 128, m.toInt = z ∧ ofInteger? z = some (.int128 m) := by
  have hv := ofInteger?_int128 h
  exact ⟨_, Option.some.inj (integer_ofInteger? hv), hv⟩

theorem exists_uint128 {z : Int} (h : 2 ^ 127 ≤ z) (h' : z < 2 ^ 128) :
    ∃ m : BitVec 128, m.toNat = z ∧ ofInteger? z = some (.uint128 m) := by
  have hv := ofInteger?_uint128 h h'
  exact ⟨_, Option.some.inj (integer_ofInteger? hv), hv⟩

theorem ofNumeral?_of_isApproximated {big : Option BigInteger} {n : Grammar.Numeral}
    (h : n.IsApproximated big) : ofNumeral? big n.text = Numeral.floatValue? n.text := by
  cases hi : n.isIntegral with
  | true =>
    obtain ⟨rfl, hwide⟩ := h hi
    have hz : n.integer < -2 ^ 127 ∨ 2 ^ 128 ≤ n.integer := by
      rw [toRat_integral hi] at hwide
      exact_mod_cast hwide
    rw [ofNumeral?_integral none hi, ofInteger?_none hz]
  | false => exact ofNumeral?_float big hi

theorem ofNumeral?_eq_none {big : Option BigInteger} {text : Bytes}
    (h : ∀ n : Grammar.Numeral, n.text ≠ text) : ofNumeral? big text = none := by
  have hnone : Numeral.ofText? text = none := by
    rw [Option.eq_none_iff_forall_not_mem]
    intro m hm
    obtain ⟨n, hn⟩ := (Numeral.isSome_ofText?_iff text).1 (Option.isSome_of_mem hm)
    exact h n hn
  rw [ofNumeral?, hnone]

/-- What a text becomes. -/
structure Narrowest (big : Option BigInteger) (text : Bytes) : Prop where
  invalid : (∀ n : Grammar.Numeral, n.text ≠ text) → ofNumeral? big text = none
  int64 : ∀ z, DenotesInteger text z → -2 ^ 63 ≤ z → z < 2 ^ 63 →
    ∃ m : Int64, m.toInt = z ∧ ofNumeral? big text = some (.int64 m)
  uint64 : ∀ z, DenotesInteger text z → 2 ^ 63 ≤ z → z < 2 ^ 64 →
    ∃ m : UInt64, m.toNat = z ∧ ofNumeral? big text = some (.uint64 m)
  int128 : ∀ z, DenotesInteger text z → z < -2 ^ 63 ∧ -2 ^ 127 ≤ z ∨ 2 ^ 64 ≤ z ∧ z < 2 ^ 127 →
    ∃ m : BitVec 128, m.toInt = z ∧ ofNumeral? big text = some (.int128 m)
  uint128 : ∀ z, DenotesInteger text z → 2 ^ 127 ≤ z → z < 2 ^ 128 →
    ∃ m : BitVec 128, m.toNat = z ∧ ofNumeral? big text = some (.uint128 m)
  built : ∀ z, DenotesInteger text z → z < -2 ^ 127 ∨ 2 ^ 128 ≤ z → ∀ build, big = some build →
    ofNumeral? big text = some (build text)
  float : ∀ n : Grammar.Numeral, n.text = text → n.IsApproximated big →
    n.magnitude < Binary64.overflowLimit →
    ∃ x : Binary64, ofNumeral? big text = some (.float x) ∧ x.IsClosest n.toRat ∧
      x.isNegative = n.negative
  overflow : ∀ n : Grammar.Numeral, n.text = text → n.IsApproximated big →
    (ofNumeral? big text = none ↔ Binary64.overflowLimit ≤ n.magnitude)

theorem narrowest (big : Option BigInteger) (text : Bytes) : Narrowest big text where
  invalid := ofNumeral?_eq_none
  int64 z hz h h' := by
    obtain ⟨m, hm, hv⟩ := exists_int64 h h'
    exact ⟨m, hm, by rw [ofNumeral?_of_denotes big hz, hv]⟩
  uint64 z hz h h' := by
    obtain ⟨m, hm, hv⟩ := exists_uint64 h h'
    exact ⟨m, hm, by rw [ofNumeral?_of_denotes big hz, hv]⟩
  int128 z hz h := by
    obtain ⟨m, hm, hv⟩ := exists_int128 h
    exact ⟨m, hm, by rw [ofNumeral?_of_denotes big hz, hv]⟩
  uint128 z hz h h' := by
    obtain ⟨m, hm, hv⟩ := exists_uint128 h h'
    exact ⟨m, hm, by rw [ofNumeral?_of_denotes big hz, hv]⟩
  built z hz h build hbig := by
    rw [ofNumeral?_of_denotes big hz, ofInteger?_none h, hbig]
  float n hn ha hlt := by
    have hnonneg := Binary64.magnitude_nonneg n
    refine ⟨Binary64.nearest n.negative n.magnitude, ?_,
      Binary64.isClosest_nearest n.negative hnonneg hlt, Binary64.isNegative_nearest _ hnonneg⟩
    rw [← hn, ofNumeral?_of_isApproximated ha, floatValue?_text, if_pos hlt]
  overflow n hn ha := by
    rw [← hn, ofNumeral?_of_isApproximated ha, floatValue?_text]
    split_ifs with hlt
    · simpa using hlt
    · simpa using hlt

end Value
end JsonCodec
