import Mathlib
import JsonCodec.Proofs.Decimal.Digits
import JsonCodec.Proofs.Decode.NumberLiteral

set_option autoImplicit false

namespace JsonCodec
open Grammar

namespace Binary64

theorem ofDecimal_natCast (negative : Bool) {digits : Nat} (hd : digits ≠ 0) (e : Nat) :
    ofDecimal negative digits (.ofNat e) = nearest negative (digits * 10 ^ e) := by
  simp only [ofDecimal, if_neg hd]
  split
  · rename_i h
    refine (nearest_eq_infinity negative ?_).symm
    have hlog : 2 ^ Nat.log2 digits ≤ digits := Nat.log2_self_le hd
    have hten : 8 ^ e ≤ 10 ^ e := Nat.pow_le_pow_left (by decide) e
    have hpow : 2 ^ 1024 ≤ digits * 10 ^ e := by
      calc 2 ^ 1024 ≤ 2 ^ (Nat.log2 digits + 3 * e) := by
            gcongr
            decide
        _ = 2 ^ Nat.log2 digits * 8 ^ e := by rw [pow_add, pow_mul]; rfl
        _ ≤ digits * 10 ^ e := Nat.mul_le_mul hlog hten
    have hlimit : overflowLimit ≤ 2 ^ 1024 := by
      have hs : (2 : ℚ) ^ 1024 = 2 ^ 54 * 2 ^ 970 := by rw [← pow_add]
      rw [overflowLimit, hs]
      exact mul_le_mul_of_nonneg_right (by norm_num) (by positivity)
    exact hlimit.trans (by exact_mod_cast hpow)
  · rw [ofRatio_eq negative _ Nat.one_pos, Decimal.powerOfTen_eq]
    push_cast
    rw [div_one]

theorem ofDecimal_negSucc (negative : Bool) {digits : Nat} (hd : digits ≠ 0) (e : Nat) :
    ofDecimal negative digits (.negSucc e) = nearest negative (digits / 10 ^ (e + 1)) := by
  simp only [ofDecimal, if_neg hd]
  split
  · rename_i h
    refine (nearest_eq_zero negative (by positivity) (le_of_lt ?_)).symm
    have hlog : digits < 2 ^ (Nat.log2 digits + 1) := Nat.lt_log2_self
    have hten : 8 ^ (e + 1) ≤ 10 ^ (e + 1) := Nat.pow_le_pow_left (by decide) _
    have hpow : 2 * (digits * one) < 10 ^ (e + 1) := by
      calc 2 * (digits * one) < 2 * (2 ^ (Nat.log2 digits + 1) * one) := by
            have := Nat.mul_lt_mul_of_pos_right hlog one_pos
            omega
        _ = 2 ^ (Nat.log2 digits + 1076) := by
            rw [one_eq, ← pow_add, ← pow_succ']
        _ ≤ 2 ^ (3 * (e + 1)) := Nat.pow_le_pow_right (by decide) (by omega)
        _ = 8 ^ (e + 1) := by rw [pow_mul]; rfl
        _ ≤ 10 ^ (e + 1) := hten
    rw [div_mul_eq_mul_div, mul_div_assoc', div_lt_one (by positivity)]
    exact_mod_cast hpow
  · rw [Decimal.powerOfTen_eq, ofRatio_eq negative _ (Nat.pow_pos (by decide))]
    push_cast
    rfl

/-- Neither shortcut for large exponents changes what is read. -/
theorem ofDecimal_eq (negative : Bool) (digits : Nat) (e : Int) :
    ofDecimal negative digits e = nearest negative (digits * (10 : ℚ) ^ e) := by
  by_cases hd : digits = 0
  · rw [hd, Nat.cast_zero, zero_mul, nearest_zero]
    rfl
  · cases e with
    | ofNat e =>
      rw [ofDecimal_natCast negative hd, Int.ofNat_eq_natCast, zpow_natCast]
    | negSucc e => rw [ofDecimal_negSucc negative hd, zpow_negSucc, div_eq_mul_inv]

theorem exponentPart_text (e : Exponent) {rest : Bytes} (hr : NotAhead Byte.isDigit rest) :
    exponentPart (e.text ++ rest) = (e.value, rest) := by
  have hd := e.digits.isDigit e.digits.first List.mem_cons_self
  have hmore : ∀ b ∈ e.digits.more, Byte.isDigit b = true := fun b hb =>
    e.digits.isDigit b (List.mem_cons_of_mem _ hb)
  have htake := takeWhile_append_notAhead hmore hr
  have hdrop := dropWhile_append_notAhead hmore hr
  cases hs : e.sign with
  | none =>
    have hsign := NumberLiteral.isSign_of_isDigit hd
    simp [Exponent.text, Exponent.value, exponentPart, e.isMark, hs, hsign, hd, htake, hdrop,
      Digits.text]
  | some b =>
    have hsign := e.isSign b hs
    simp [Exponent.text, Exponent.value, exponentPart, e.isMark, hs, hsign, hd, htake, hdrop,
      Digits.text]

theorem exponentPart_textOf (exponent : Option Exponent) :
    exponentPart (Exponent.textOf exponent) = (Exponent.valueOf exponent, []) := by
  cases exponent with
  | none => rfl
  | some e =>
    simpa [Exponent.textOf, Exponent.valueOf] using exponentPart_text e (notAhead_textOf none)

/-- Digits, perhaps with a point before, among or after them. -/
inductive Mantissa where
  | whole (digits : Bytes) (isDigit : ∀ b ∈ digits, Byte.isDigit b = true) (ne_nil : digits ≠ [])
  | pointed (before after : Bytes) (isDigit_before : ∀ b ∈ before, Byte.isDigit b = true)
      (isDigit_after : ∀ b ∈ after, Byte.isDigit b = true) (ne_nil : before ++ after ≠ [])

namespace Mantissa

def text : Mantissa → Bytes
  | whole digits _ _ => digits
  | pointed before after _ _ _ => before ++ Byte.point :: after

def digits : Mantissa → Bytes
  | whole digits _ _ => digits
  | pointed before after _ _ _ => before ++ after

def places : Mantissa → Nat
  | whole _ _ _ => 0
  | pointed _ after _ _ _ => after.length

def Ends (rest : Bytes) : Mantissa → Prop
  | whole _ _ _ => NotAhead Byte.isDigit rest ∧ NotAhead (· == Byte.point) rest
  | pointed _ _ _ _ _ => NotAhead Byte.isDigit rest

end Mantissa

theorem digitsPart_mantissa (negative : Bool) {m : Mantissa} {rest : Bytes} (h : m.Ends rest) :
    digitsPart negative (m.text ++ rest) =
      some (.decimal negative (Decimal.value m.digits) ((exponentPart rest).1 - m.places),
        (exponentPart rest).2) := by
  cases m with
  | whole before hb hne =>
    obtain ⟨hd, hp⟩ := h
    have hempty : before.isEmpty = false := by simpa using hne
    simp only [digitsPart, Mantissa.text, Mantissa.digits, Mantissa.places,
      takeWhile_append_notAhead hb hd, dropWhile_append_notAhead hb hd]
    split
    · exact absurd (hp _ rfl) (by decide)
    · simp [hempty]
  | pointed before after hb ha hne =>
    have hpoint : NotAhead Byte.isDigit (Byte.point :: (after ++ rest)) := by
      simp [NotAhead, (by decide : Byte.isDigit Byte.point = false)]
    have hempty : (before.isEmpty && after.isEmpty) = false := by
      simpa [List.append_eq_nil_iff] using hne
    simp only [digitsPart, Mantissa.text, Mantissa.digits, Mantissa.places, List.append_assoc,
      List.cons_append, takeWhile_append_notAhead hb hpoint, dropWhile_append_notAhead hb hpoint,
      takeWhile_append_notAhead ha h, dropWhile_append_notAhead ha h, hempty, Bool.false_eq_true,
      ↓reduceIte]

theorem digitsPart_cons (negative : Bool) (d : Digits) (fraction : Option Digits)
    (exponent : Option Exponent) :
    digitsPart negative (d.text ++ (Digits.pointTextOf fraction ++ Exponent.textOf exponent)) =
      some (.decimal negative (Decimal.value (d.text ++ Digits.textOf fraction))
        (Exponent.valueOf exponent - (Digits.textOf fraction).length), []) := by
  have hexp := notAhead_textOf exponent
  have hpart := exponentPart_textOf exponent
  cases fraction with
  | none =>
    have hp : NotAhead (· == Byte.point) (Exponent.textOf exponent) := by
      simpa using notAhead_exponent exponent [] (fun _ hb => (mark_plain hb).2) fun _ => by
        simp [NotAhead]
    let m : Mantissa := .whole d.text d.isDigit (List.cons_ne_nil _ _)
    have h := digitsPart_mantissa negative (show m.Ends _ from ⟨hexp, hp⟩)
    rw [hpart] at h
    simpa [m, Mantissa.text, Mantissa.digits, Mantissa.places, Digits.pointTextOf,
      Digits.textOf] using h
  | some f =>
    let m : Mantissa := .pointed d.text f.text d.isDigit f.isDigit (by simp [Digits.text])
    have h := digitsPart_mantissa negative (show m.Ends _ from hexp)
    rw [hpart] at h
    simpa [m, Mantissa.text, Mantissa.digits, Mantissa.places, Digits.pointTextOf,
      Digits.textOf] using h

theorem recognise_minus (text : Bytes) :
    recognise (Byte.minus :: text) =
      (digitsPart true text).orElse fun _ => namedPart true text := rfl

theorem recognise_cons {b : UInt8} (hb : ¬ b = 0x2D) (text : Bytes) :
    recognise (b :: text) =
      (digitsPart false (b :: text)).orElse fun _ => namedPart false (b :: text) := by
  delta recognise
  simp [hb]

theorem recognise_text (n : Grammar.Numeral) :
    recognise n.text = some (.decimal n.negative (Decimal.value n.digits) n.power, []) := by
  have hparts := digitsPart_cons n.negative n.whole n.fraction n.exponent
  have hfirst := digit_ne_minus (n.whole.isDigit n.whole.first List.mem_cons_self)
  rw [Grammar.Numeral.text, Grammar.Numeral.unsignedText, List.append_assoc,
    Grammar.Numeral.signText]
  cases hneg : n.negative with
  | true =>
    rw [hneg] at hparts
    rw [if_pos rfl, List.singleton_append, recognise_minus, hparts, Option.orElse_some]
    rfl
  | false =>
    rw [hneg, Digits.text, List.cons_append] at hparts
    rw [if_neg Bool.false_ne_true, List.nil_append, Digits.text, List.cons_append,
      recognise_cons hfirst, hparts, Option.orElse_some]
    rfl

theorem magnitude_nonneg (n : Grammar.Numeral) : 0 ≤ n.magnitude := by
  unfold Grammar.Numeral.magnitude
  positivity

/-- A numeral is read as the nearest double, unless that is infinite. -/
theorem read_text (n : Grammar.Numeral) :
    read n.text = if n.magnitude < overflowLimit then .ok (nearest n.negative n.magnitude)
      else .error .outOfRange := by
  have hx : ofDecimal n.negative (Decimal.value n.digits) n.power =
      nearest n.negative n.magnitude := ofDecimal_eq _ _ _
  have hinf := isInfinite_nearest n.negative (magnitude_nonneg n)
  simp only [read, recognise_text, hx]
  by_cases h : n.magnitude < overflowLimit
  · have h' : (nearest n.negative n.magnitude).isInfinite = false := by
      rw [Bool.eq_false_iff, ne_eq, hinf]
      exact not_le.2 h
    simp [h, h']
  · simp [h, hinf.2 (not_lt.1 h)]

end Binary64
end JsonCodec
