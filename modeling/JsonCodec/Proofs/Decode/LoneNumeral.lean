import Mathlib
import JsonCodec.Proofs.Decode.Acceptance
import JsonCodec.Proofs.Decode.Prefix

set_option autoImplicit false

namespace JsonCodec
open Grammar Runs

def Binary64.IsExact (n : Nat) : Prop :=
  (Binary64.ofNat n).isFinite = true ∧ (Binary64.ofNat n).whole? = some n

namespace Binary64

theorem isExact_of_units {n : Nat} (hlimit : (n : ℚ) < overflowLimit)
    (h : (nearest false (n : ℚ)).units = n * one) : IsExact n := by
  have hwhole : (ofNat n).whole? = some n := by
    rw [ofNat_eq, whole?, h, if_pos (Nat.mul_mod_left n one), Nat.mul_div_cancel n one_pos]
  refine ⟨?_, hwhole⟩
  rw [ofNat_eq]
  exact isFinite_nearest false (Nat.cast_nonneg n) hlimit

end Binary64

namespace NumberLiteral

def literal (extent : Extent) : Scanner NumberLiteral := do
  let negative ← minusPart
  unsigned extent negative

/-- What was gathered of a numeral is all of it, and one operation on doubles finds its value. -/
structure Shortcut (l : NumberLiteral) (n : Grammar.Numeral) : Prop where
  negative : l.negative = n.negative
  magnitude : (l.digits.value.toNat : ℚ) * 10 ^ l.power = n.magnitude
  digits : Binary64.IsExact l.digits.value.toNat
  powerOfTen : Binary64.IsExact (Decimal.powerOfTen l.power.natAbs)
  double : ∃ x, l.value? = some (.float x) ∧ Binary64.read n.text = .ok x

theorem literal_text (n : Grammar.Numeral) : literal .whole n.text = .ok (gathered n) [] := by
  have hsign : minusPart n.text = .ok n.negative n.unsignedText := by
    simpa using minusPart_text n []
  have hrest : unsigned .whole n.negative n.unsignedText = .ok (gathered n) [] := by
    simpa using unsigned_numeral .whole n [] (stops_nil.numeral .whole n)
  rw [literal, bind_run, hsign]
  exact hrest

theorem isExact_powerOfTen {p : Int} (hp : p.natAbs ≤ exactPower) :
    Binary64.IsExact (Decimal.powerOfTen p.natAbs) := by
  have hlimit := magnitude_lt_limit (n := 1) (by decide) (p := p.natAbs) hp
  rw [Nat.cast_one, one_mul, zpow_natCast] at hlimit
  rw [Decimal.powerOfTen_eq]
  refine Binary64.isExact_of_units ?_ (Binary64.units_nearest_powerOfTen false hp)
  exact_mod_cast hlimit

theorem isExact_digits {n : Nat} (hn : n ≤ 2 ^ 53) : Binary64.IsExact n := by
  have hlimit := magnitude_lt_limit hn (p := 0) (by decide)
  rw [zpow_zero, mul_one] at hlimit
  exact Binary64.isExact_of_units hlimit (Binary64.units_nearest_natCast false hn)

theorem shortcut_gathered {n : Grammar.Numeral} (hf : (gathered n).isFloat = true)
    (he : (gathered n).isExact = true) : Shortcut (gathered n) n := by
  have hparts := he
  simp only [isExact, Bool.and_eq_true, Bool.not_eq_true', decide_eq_true_eq] at hparts
  obtain ⟨⟨ho, hv⟩, hp⟩ := hparts
  obtain ⟨c, hd, -⟩ := holds_gathered n ho
  have hle : (gathered n).digits.value.toNat ≤ 2 ^ 53 := UInt64.le_iff_toNat_le.1 hv
  obtain ⟨x, hx⟩ : ∃ x, (gathered n).value? = some (.float x) := by
    rw [value?, if_pos hf, if_pos he]
    exact ⟨_, rfl⟩
  refine ⟨rfl, ?_, isExact_digits hle, isExact_powerOfTen hp, x, hx, ?_⟩
  · rw [hd.value, power_gathered ho hp, Grammar.Numeral.magnitude]
  · -- the value of the text is the float that the text reads as
    have hi : n.isIntegral = false := by simpa [gathered] using hf
    have hvalue := ofNumeral?_eq_value? none hx
    rw [Value.ofNumeral?_float none hi, Numeral.floatValue?] at hvalue
    split at hvalue
    · rename_i y hread
      rw [hread, Value.float.inj (Option.some.inj hvalue)]
    · cases hvalue

end NumberLiteral

namespace Decode

/-- Decoding a text that is a numeral agrees with the value of the text. -/
structure NumeralAgreement (o : DecodeOptions) (text : Bytes) (cache : KeyCache) : Prop where
  value : ∀ v, Value.ofNumeral? o.bigInteger text = some v →
    whole o (.bytes text) cache = (.ok { value := v }, cache)
  outOfRange : Value.ofNumeral? o.bigInteger text = none →
    ∃ e, whole o (.bytes text) cache = (.error e, cache) ∧ e.code = .invalidNumber
  shortcut : ∃ n : Grammar.Numeral, n.text = text ∧
    ∃ l, NumberLiteral.literal .whole text = .ok l [] ∧
      (l.isFloat = true → l.isExact = true → l.Shortcut n)

theorem shortLiteral?_numeral (n : Grammar.Numeral) : shortLiteral? n.text = none := by
  obtain ⟨b, tail, ht, hb⟩ := Reader.startsNumber_numeral n
  obtain ⟨hquote, hbrace, hbracket, -⟩ := Reader.startsNumber_spec hb
  rw [ht]
  rcases tail with _ | ⟨c, _ | ⟨d, more⟩⟩
  · rfl
  · simp [shortLiteral?, hquote, hbrace, hbracket]
  · rfl

theorem document_numeral (o : DecodeOptions) (n : Grammar.Numeral) (cache : KeyCache) :
    Reader.document o ⟨n.text, cache⟩ = match Value.ofNumeral? o.bigInteger n.text with
      | some v => .ok { value := v } ⟨[], cache⟩
      | none => .error .numberOutOfRange ⟨n.text, cache⟩ := by
  have hvalue := Reader.value_numeral_run o .whole o.depthLimit n (stops_nil.numeral .whole n) cache
  rw [List.append_nil] at hvalue
  rw [document_run, hvalue]
  cases Value.ofNumeral? o.bigInteger n.text <;> rfl

theorem whole_numeral (o : DecodeOptions) (n : Grammar.Numeral) (cache : KeyCache) :
    whole o (.bytes n.text) cache = match Value.ofNumeral? o.bigInteger n.text with
      | some v => (.ok { value := v }, cache)
      | none => (.error (DecodeError.ofFault n.text n.text .numberOutOfRange), cache) := by
  have hchecks : o.Checks n.text := fun _ => Utf8.wellFormed_ascii n.ascii
  simp only [whole, Source.read_of_checks hchecks, shortLiteral?_numeral, run, document_numeral]
  cases Value.ofNumeral? o.bigInteger n.text <;> rfl

theorem numeralAgreement (o : DecodeOptions) {text : Bytes}
    (h : (Numeral.ofText? text).isSome = true) (cache : KeyCache) :
    NumeralAgreement o text cache := by
  obtain ⟨n, rfl⟩ := (Numeral.isSome_ofText?_iff text).1 h
  have hrun := whole_numeral o n cache
  refine ⟨fun v hv => ?_, fun hnone => ?_, n, rfl, NumberLiteral.gathered n,
    NumberLiteral.literal_text n, fun hf he => NumberLiteral.shortcut_gathered hf he⟩
  · rw [hrun, hv]
  · rw [hnone] at hrun
    exact ⟨_, hrun, rfl⟩

/-- A numeral whose value the gathered digits are enough for: one tenth, negative. -/
theorem numeralAgreement_tenth :
    (Numeral.ofText? (Bytes.ascii "-0.1")).isSome = true ∧
      NumeralAgreement {} (Bytes.ascii "-0.1") KeyCache.empty :=
  have h : (Numeral.ofText? (Bytes.ascii "-0.1")).isSome = true := by decide +kernel
  ⟨h, numeralAgreement {} h KeyCache.empty⟩

end Decode
end JsonCodec
