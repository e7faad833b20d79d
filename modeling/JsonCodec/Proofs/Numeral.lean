import Mathlib
import JsonCodec.Proofs.Binary64.Reading

set_option autoImplicit false

namespace JsonCodec
open Grammar

/-- The narrowest integer that holds a number, if 128 bits are enough. -/
def Value.ofInteger? (z : Int) : Option Value :=
  if -2 ^ 63 ≤ z ∧ z < 2 ^ 63 then some (.int64 (Int64.ofInt z))
  else if 0 ≤ z ∧ z < 2 ^ 64 then some (.uint64 (UInt64.ofNat z.toNat))
  else if -2 ^ 127 ≤ z ∧ z < 2 ^ 127 then some (.int128 (BitVec.ofInt 128 z))
  else if 0 ≤ z ∧ z < 2 ^ 128 then some (.uint128 (BitVec.ofNat 128 z.toNat))
  else none

namespace Value

variable {z : Int}

theorem ofInteger?_int64 (h : -2 ^ 63 ≤ z) (h' : z < 2 ^ 63) :
    ofInteger? z = some (.int64 (Int64.ofInt z)) := by
  rw [ofInteger?, if_pos ⟨h, h'⟩]

theorem ofInteger?_uint64 (h : 2 ^ 63 ≤ z) (h' : z < 2 ^ 64) :
    ofInteger? z = some (.uint64 (UInt64.ofNat z.toNat)) := by
  rw [ofInteger?, if_neg (by omega), if_pos (by omega)]

theorem ofInteger?_int128 (h : z < -2 ^ 63 ∧ -2 ^ 127 ≤ z ∨ 2 ^ 64 ≤ z ∧ z < 2 ^ 127) :
    ofInteger? z = some (.int128 (BitVec.ofInt 128 z)) := by
  rw [ofInteger?, if_neg (by omega), if_neg (by omega), if_pos (by omega)]

theorem ofInteger?_uint128 (h : 2 ^ 127 ≤ z) (h' : z < 2 ^ 128) :
    ofInteger? z = some (.uint128 (BitVec.ofNat 128 z.toNat)) := by
  rw [ofInteger?, if_neg (by omega), if_neg (by omega), if_neg (by omega), if_pos (by omega)]

theorem ofInteger?_none (h : z < -2 ^ 127 ∨ 2 ^ 128 ≤ z) : ofInteger? z = none := by
  rw [ofInteger?, if_neg (by omega), if_neg (by omega), if_neg (by omega), if_neg (by omega)]

theorem isSome_ofInteger? (z : Int) :
    (ofInteger? z).isSome = true ↔ -2 ^ 127 ≤ z ∧ z < 2 ^ 128 := by
  simp only [ofInteger?]
  split_ifs <;> simp <;> omega

end Value

namespace Numeral

def signed (negative : Bool) (magnitude : Nat) : Int :=
  if negative then -magnitude else magnitude

theorem pushWide_eq (n : BitVec 128) (b : UInt8) (hb : Byte.isDigit b = true) :
    pushWide n b =
      if n.toNat * 10 + Byte.digitValue b < 2 ^ 128 then
        some (BitVec.ofNat 128 (n.toNat * 10 + Byte.digitValue b))
      else none := by
  have hd := Decimal.digitValue_lt hb
  have hmost : mostWide = 2 ^ 128 - 1 := rfl
  simp only [pushWide, Bool.or_eq_true, Bool.and_eq_true, decide_eq_true_eq, beq_iff_eq]
  split_ifs with h₁ h₂ h₂
  · omega
  · rfl
  · congr 1
    rw [← BitVec.toNat_inj]
    simp
  · omega

theorem foldlM_pushWide (ds : Bytes) (hd : ∀ b ∈ ds, Byte.isDigit b = true) (n : BitVec 128) :
    ds.foldlM pushWide n =
      if n.toNat * 10 ^ ds.length + Decimal.value ds < 2 ^ 128 then
        some (BitVec.ofNat 128 (n.toNat * 10 ^ ds.length + Decimal.value ds))
      else none := by
  induction ds generalizing n with
  | nil => simp [n.isLt]
  | cons b ds ih =>
    have hds : ∀ c ∈ ds, Byte.isDigit c = true := fun c hc => hd c (List.mem_cons_of_mem b hc)
    have hsum : n.toNat * 10 ^ (b :: ds).length + Decimal.value (b :: ds) =
        (n.toNat * 10 + Byte.digitValue b) * 10 ^ ds.length + Decimal.value ds := by
      rw [Decimal.value_cons, List.length_cons, pow_succ]
      ring
    rw [List.foldlM_cons, pushWide_eq n b (hd b List.mem_cons_self), hsum]
    split_ifs with h₁ h₂ h₂
    · rw [Option.bind_eq_bind, Option.bind_some, ih hds, BitVec.toNat_ofNat, Nat.mod_eq_of_lt h₁,
        if_pos h₂]
    · rw [Option.bind_eq_bind, Option.bind_some, ih hds, BitVec.toNat_ofNat, Nat.mod_eq_of_lt h₁,
        if_neg h₂]
    · have h10 : 1 ≤ 10 ^ ds.length := Nat.one_le_pow _ _ (by decide)
      nlinarith
    · rfl

theorem wide?_eq (ds : Bytes) (hd : ∀ b ∈ ds, Byte.isDigit b = true) :
    wide? ds = if Decimal.value ds < 2 ^ 128 then some (BitVec.ofNat 128 (Decimal.value ds))
      else none := by
  have h := foldlM_pushWide ds hd 0
  simp only [BitVec.ofNat_eq_ofNat, BitVec.toNat_ofNat, Nat.zero_mod, zero_mul, zero_add] at h
  exact h

theorem toNat_foldl_word (ds : Bytes) (hd : ∀ b ∈ ds, Byte.isDigit b = true) (n : UInt64)
    (h : n.toNat * 10 ^ ds.length + Decimal.value ds < 2 ^ 64) :
    (ds.foldl (fun n b => n * 10 + (Byte.digitValue b).toUInt64) n).toNat =
      n.toNat * 10 ^ ds.length + Decimal.value ds := by
  induction ds generalizing n with
  | nil => simp
  | cons b ds ih =>
    have hb := Decimal.digitValue_lt (hd b List.mem_cons_self)
    have h10 : 1 ≤ 10 ^ ds.length := Nat.one_le_pow _ _ (by decide)
    have hsum : n.toNat * 10 ^ (b :: ds).length + Decimal.value (b :: ds) =
        (n.toNat * 10 + Byte.digitValue b) * 10 ^ ds.length + Decimal.value ds := by
      rw [Decimal.value_cons, List.length_cons, pow_succ]
      ring
    rw [hsum] at h ⊢
    have hlt : n.toNat * 10 + Byte.digitValue b < 2 ^ 64 := by nlinarith
    have hstep : (n * 10 + (Byte.digitValue b).toUInt64).toNat =
        n.toNat * 10 + Byte.digitValue b := by
      simp
      omega
    rw [List.foldl_cons, ih (fun c hc => hd c (List.mem_cons_of_mem b hc)) _ (by rwa [hstep]),
      hstep]

theorem toNat_word (ds : Bytes) (hd : ∀ b ∈ ds, Byte.isDigit b = true) (hl : ds.length ≤ 19) :
    (word ds).toNat = Decimal.value ds := by
  have hv := Decimal.value_lt hd
  have hp : 10 ^ ds.length ≤ 10 ^ 19 := Nat.pow_le_pow_right (by decide) hl
  have h := toNat_foldl_word ds hd 0 (by simp; omega)
  simpa [word] using h

theorem ofWord?_eq (negative : Bool) (m : UInt64) :
    ofWord? negative m =
      if negative = true ∧ 2 ^ 63 < m.toNat then none
      else Value.ofInteger? (signed negative m.toNat) := by
  have hm := m.toNat_lt
  have hint : (m.toInt64 : Int64) = Int64.ofInt m.toNat := by
    rw [← Int64.toBitVec_inj]
    simp
  have hneg : (0 - m).toInt64 = Int64.ofInt (-m.toNat) := by
    rw [← Int64.toBitVec_inj]
    simp
  have hsign : (9223372036854775808 : UInt64).toNat = 2 ^ 63 := rfl
  rw [ofWord?, signed]
  cases negative with
  | true =>
    simp only [↓reduceIte, UInt64.le_iff_toNat_le, hsign, true_and]
    by_cases h : m.toNat ≤ 2 ^ 63
    · rw [if_pos h, if_neg (by omega), Value.ofInteger?_int64 (by omega) (by omega), hneg]
    · rw [if_neg h, if_pos (by omega)]
  | false =>
    simp only [Bool.false_eq_true, ↓reduceIte, UInt64.lt_iff_toNat_lt, hsign, false_and]
    by_cases h : m.toNat < 2 ^ 63
    · rw [if_pos h, Value.ofInteger?_int64 (by omega) (by omega), hint]
    · rw [if_neg h, Value.ofInteger?_uint64 (by omega) (by omega), Int.toNat_natCast,
        UInt64.ofNat_toNat]

theorem le_value (d : Digits) (hz : d.first ≠ Byte.zero) :
    10 ^ d.more.length ≤ Decimal.value d.text := by
  have hd := d.isDigit d.first List.mem_cons_self
  have h1 : 1 ≤ Byte.digitValue d.first := by
    generalize d.first = b at hz hd
    revert b
    decide +kernel
  rw [Digits.text, Decimal.value_cons]
  nlinarith [Nat.mul_le_mul_right (10 ^ d.more.length) h1]

/-- The number is at hand in 64 bits exactly if it fits them. -/
theorem narrowValue?_eq (negative : Bool) (d : Digits) (hz : d.first = Byte.zero → d.more = []) :
    narrowValue? negative d.text =
      if -2 ^ 63 ≤ signed negative (Decimal.value d.text) ∧
          signed negative (Decimal.value d.text) < 2 ^ 64 then
        Value.ofInteger? (signed negative (Decimal.value d.text))
      else none := by
  have hv := Decimal.value_lt d.isDigit
  change Decimal.value d.text < 10 ^ d.text.length at hv
  have hlen : d.text.length = d.more.length + 1 := rfl
  have hlow (hl : d.text.length ≠ 1) : 10 ^ d.more.length ≤ Decimal.value d.text := by
    refine le_value d fun h => hl ?_
    rw [hlen, hz h]
    rfl
  unfold narrowValue?
  by_cases h19 : d.text.length ≤ 19
  · have hp : 10 ^ d.text.length ≤ 10 ^ 19 := Nat.pow_le_pow_right (by decide) h19
    rw [if_pos h19, ofWord?_eq, toNat_word d.text d.isDigit h19, signed]
    cases negative with
    | true =>
      simp only [↓reduceIte, true_and]
      by_cases h : 2 ^ 63 < Decimal.value d.text
      · rw [if_pos h, if_neg (by omega)]
      · rw [if_neg h, if_pos (by omega)]
    | false =>
      simp only [Bool.false_eq_true, ↓reduceIte, false_and]
      rw [if_pos (by omega)]
  · have hp : 10 ^ 19 ≤ 10 ^ d.more.length := Nat.pow_le_pow_right (by decide) (by omega)
    have hlow := hlow (by omega)
    rw [if_neg h19, signed]
    cases negative with
    | true =>
      simp only [Bool.not_true, Bool.and_false, Bool.false_eq_true, ↓reduceIte]
      rw [if_neg (by omega)]
    | false =>
      simp only [Bool.not_false, Bool.and_true, decide_eq_true_eq, Bool.false_eq_true, ↓reduceIte]
      by_cases h20 : d.text.length = 20
      · rw [if_pos h20, wide?_eq d.text d.isDigit]
        rw [h20] at hv
        have hmod : (BitVec.ofNat 128 (Decimal.value d.text)).toNat = Decimal.value d.text := by
          rw [BitVec.toNat_ofNat, Nat.mod_eq_of_lt (by omega)]
        have hword : Decimal.wordLimit = 2 ^ 64 := rfl
        simp only [if_pos (show Decimal.value d.text < 2 ^ 128 by omega), hmod, hword]
        by_cases h : Decimal.value d.text < 2 ^ 64
        · rw [if_pos h, if_pos (by omega), Value.ofInteger?_uint64 (by omega) (by omega),
            Int.toNat_natCast]
        · rw [if_neg h, if_neg (by omega)]
      · have hp : 10 ^ 20 ≤ 10 ^ d.more.length := Nat.pow_le_pow_right (by decide) (by omega)
        rw [if_neg h20, if_neg (by omega)]

theorem wideValue?_eq (negative : Bool) (ds : Bytes) (hd : ∀ b ∈ ds, Byte.isDigit b = true)
    (h : ¬ (-2 ^ 63 ≤ signed negative (Decimal.value ds) ∧
      signed negative (Decimal.value ds) < 2 ^ 64)) :
    wideValue? negative ds = Value.ofInteger? (signed negative (Decimal.value ds)) := by
  have hsign : wideSign = 2 ^ 127 := rfl
  rw [wideValue?, wide?_eq ds hd]
  generalize Decimal.value ds = v at *
  rw [signed] at *
  by_cases hfit : v < 2 ^ 128
  · have hmod : (BitVec.ofNat 128 v).toNat = v := by
      rw [BitVec.toNat_ofNat, Nat.mod_eq_of_lt hfit]
    simp only [if_pos hfit, hmod, hsign]
    cases negative with
    | true =>
      simp only [↓reduceIte] at *
      by_cases hle : v ≤ 2 ^ 127
      · rw [if_pos hle, Value.ofInteger?_int128 (.inl (by omega))]
        congr 2
        simp [BitVec.ofInt_neg]
      · rw [if_neg hle, Value.ofInteger?_none (.inl (by omega))]
    | false =>
      simp only [Bool.false_eq_true, ↓reduceIte] at *
      by_cases hlt : v < 2 ^ 127
      · rw [if_pos hlt, Value.ofInteger?_int128 (.inr (by omega))]
        congr 2
      · rw [if_neg hlt, Value.ofInteger?_uint128 (by omega) (by omega)]
        rfl
  · simp only [if_neg hfit]
    cases negative with
    | true => rw [if_pos rfl, Value.ofInteger?_none (.inl (by omega))]
    | false => rw [if_neg Bool.false_ne_true, Value.ofInteger?_none (.inr (by omega))]

theorem integerDigits?_text (d : Digits) (hz : d.first = Byte.zero → d.more = []) (rest : Bytes)
    (hr : d.first ≠ Byte.zero → NotAhead Byte.isDigit rest) :
    integerDigits? (d.text ++ rest) = some (d.text, rest) := by
  have hd := d.isDigit d.first List.mem_cons_self
  have hmore : ∀ b ∈ d.more, Byte.isDigit b = true := fun b hb =>
    d.isDigit b (List.mem_cons_of_mem _ hb)
  rw [Digits.text, List.cons_append, integerDigits?]
  by_cases h : d.first = Byte.zero
  · rw [h] at hd
    simp [h, hz h, hd]
  · simp [hd, h, takeWhile_append_notAhead hmore (hr h), dropWhile_append_notAhead hmore (hr h)]

theorem afterDigits?_text (d : Digits) (rest : Bytes) (hr : NotAhead Byte.isDigit rest) :
    afterDigits? (d.text ++ rest) = some rest := by
  have hd := d.isDigit d.first List.mem_cons_self
  have hmore : ∀ b ∈ d.more, Byte.isDigit b = true := fun b hb =>
    d.isDigit b (List.mem_cons_of_mem _ hb)
  simp [Digits.text, afterDigits?, hd, dropWhile_append_notAhead hmore hr]

theorem skipSign_text (e : Exponent) :
    skipSign (e.sign.toList ++ e.digits.text) = e.digits.text := by
  have hd := e.digits.isDigit e.digits.first List.mem_cons_self
  cases hs : e.sign with
  | none => simp [skipSign, Digits.text, NumberLiteral.isSign_of_isDigit hd]
  | some b => simp [skipSign, e.isSign b hs]

theorem afterExponent?_text (exponent : Option Exponent) :
    afterExponent? (Exponent.textOf exponent) = some (exponent.isSome, []) := by
  cases exponent with
  | none => rfl
  | some e =>
    have h := afterDigits?_text e.digits [] (by simp [NotAhead])
    rw [List.append_nil] at h
    simp [Exponent.textOf, Exponent.text, afterExponent?, e.isMark, skipSign_text, h]

theorem afterFraction?_text (fraction : Option Digits) (exponent : Option Exponent) :
    afterFraction? (Digits.pointTextOf fraction ++ Exponent.textOf exponent) =
      some (fraction.isSome, Exponent.textOf exponent) := by
  have hexp := notAhead_textOf exponent
  cases fraction with
  | none =>
    cases exponent with
    | none => rfl
    | some e =>
      have hm := (mark_plain e.isMark).2
      simp [Digits.pointTextOf, Exponent.textOf, Exponent.text, afterFraction?, hm]
  | some f =>
    simp [Digits.pointTextOf, afterFraction?, afterDigits?_text f _ hexp]

def ofUnsigned? (negative : Bool) (text : Bytes) : Option Numeral := do
  let (digits, rest) ← integerDigits? text
  let (fraction, rest) ← afterFraction? rest
  let (exponent, rest) ← afterExponent? rest
  if rest.isEmpty then some ⟨negative, !(fraction || exponent), digits⟩ else none

theorem ofText?_cons (b : UInt8) (tail : Bytes) :
    ofText? (b :: tail) =
      if b = Byte.minus then ofUnsigned? true tail else ofUnsigned? false (b :: tail) := by
  by_cases hb : b = 0x2D
  · subst hb
    rfl
  · simp [ofText?, ofUnsigned?, hb]

theorem ofUnsigned?_text (n : Grammar.Numeral) :
    ofUnsigned? n.negative n.unsignedText =
      some ⟨n.negative, n.isIntegral, n.whole.text⟩ := by
  have hrest := notAhead_point n.fraction (Exponent.textOf n.exponent) fun _ => notAhead_textOf _
  have hint := integerDigits?_text n.whole n.zero_alone _ fun _ => hrest
  rw [ofUnsigned?, Grammar.Numeral.unsignedText, List.append_assoc, hint]
  simp only [Option.bind_eq_bind, Option.bind_some, afterFraction?_text, afterExponent?_text]
  cases hf : n.fraction <;> cases he : n.exponent <;> simp [Grammar.Numeral.isIntegral, hf, he]

theorem ofText?_text (n : Grammar.Numeral) :
    ofText? n.text = some ⟨n.negative, n.isIntegral, n.whole.text⟩ := by
  have h := ofUnsigned?_text n
  have hfirst := digit_ne_minus (n.whole.isDigit n.whole.first List.mem_cons_self)
  obtain ⟨tail, htail⟩ : ∃ tail, n.unsignedText = n.whole.first :: tail := ⟨_, rfl⟩
  rw [Grammar.Numeral.text, Grammar.Numeral.signText]
  cases hneg : n.negative with
  | true =>
    rw [hneg] at h
    rw [if_pos rfl, List.singleton_append, ofText?_cons, if_pos rfl, h]
  | false =>
    rw [hneg, htail] at h
    rw [if_neg Bool.false_ne_true, List.nil_append, htail, ofText?_cons, if_neg hfirst, h]

theorem integerDigits?_eq_some {text digits rest : Bytes}
    (h : integerDigits? text = some (digits, rest)) :
    ∃ d : Digits, text = d.text ++ rest ∧ (d.first = Byte.zero → d.more = []) := by
  cases text with
  | nil => cases h
  | cons b tail =>
    rw [integerDigits?] at h
    split_ifs at h with hd hz
    · obtain ⟨-, rfl⟩ := Prod.mk.inj (Option.some.inj h)
      exact ⟨⟨b, [], by simpa using hd⟩, rfl, fun _ => rfl⟩
    · obtain ⟨-, rfl⟩ := Prod.mk.inj (Option.some.inj h)
      have hb : Byte.isDigit b = true := by simpa using hd
      obtain ⟨d, hfirst, ht⟩ := exists_digits hb tail
      rw [List.dropWhile_cons_of_pos hb] at ht
      exact ⟨d, ht, fun hzero => absurd (by rw [← hfirst, hzero]; rfl) hz⟩

theorem afterDigits?_eq_some {text rest : Bytes} (h : afterDigits? text = some rest) :
    ∃ d : Digits, text = d.text ++ rest := by
  cases text with
  | nil => cases h
  | cons b tail =>
    rw [afterDigits?] at h
    split_ifs at h with hb
    obtain ⟨d, -, ht⟩ := exists_digits hb tail
    rw [List.dropWhile_cons_of_pos hb, Option.some.inj h] at ht
    exact ⟨d, ht⟩

theorem afterFraction?_eq_some {text rest : Bytes} {found : Bool}
    (h : afterFraction? text = some (found, rest)) :
    ∃ fraction : Option Digits, text = Digits.pointTextOf fraction ++ rest := by
  cases text with
  | nil =>
    obtain ⟨-, rfl⟩ := Prod.mk.inj (Option.some.inj h)
    exact ⟨none, rfl⟩
  | cons b tail =>
    rw [afterFraction?] at h
    split_ifs at h with hp
    · obtain ⟨rest', hd, hr⟩ := Option.map_eq_some_iff.1 h
      obtain ⟨-, rfl⟩ := Prod.mk.inj hr
      obtain ⟨d, rfl⟩ := afterDigits?_eq_some hd
      exact ⟨some d, by rw [beq_iff_eq.1 hp]; rfl⟩
    · obtain ⟨-, rfl⟩ := Prod.mk.inj (Option.some.inj h)
      exact ⟨none, rfl⟩

theorem exists_skipSign (text : Bytes) :
    ∃ sign : Option UInt8, text = sign.toList ++ skipSign text ∧
      ∀ b ∈ sign, Byte.isSign b = true := by
  cases text with
  | nil => exact ⟨none, rfl, by simp⟩
  | cons b tail =>
    cases hb : Byte.isSign b with
    | true => exact ⟨some b, by simp [skipSign, hb], by simpa using hb⟩
    | false => exact ⟨none, by simp [skipSign, hb], by simp⟩

theorem afterExponent?_eq_some {text rest : Bytes} {found : Bool}
    (h : afterExponent? text = some (found, rest)) :
    ∃ exponent : Option Exponent, text = Exponent.textOf exponent ++ rest := by
  cases text with
  | nil =>
    obtain ⟨-, rfl⟩ := Prod.mk.inj (Option.some.inj h)
    exact ⟨none, rfl⟩
  | cons b tail =>
    rw [afterExponent?] at h
    split_ifs at h with hm
    · obtain ⟨rest', hd, hr⟩ := Option.map_eq_some_iff.1 h
      obtain ⟨-, rfl⟩ := Prod.mk.inj hr
      obtain ⟨d, hdigits⟩ := afterDigits?_eq_some hd
      obtain ⟨sign, htail, hsign⟩ := exists_skipSign tail
      refine ⟨some ⟨b, sign, d, hm, hsign⟩, ?_⟩
      rw [htail, hdigits]
      simp [Exponent.textOf, Exponent.text]
    · obtain ⟨-, rfl⟩ := Prod.mk.inj (Option.some.inj h)
      exact ⟨none, rfl⟩

theorem ofUnsigned?_eq_some {negative : Bool} {text : Bytes} {m : Numeral}
    (h : ofUnsigned? negative text = some m) :
    ∃ n : Grammar.Numeral, n.negative = negative ∧ text = n.unsignedText := by
  obtain ⟨⟨digits, rest₁⟩, hwhole, h₁⟩ := Option.bind_eq_some_iff.1 h
  obtain ⟨⟨fraction, rest₂⟩, hfraction, h₂⟩ := Option.bind_eq_some_iff.1 h₁
  obtain ⟨⟨exponent, rest₃⟩, hexponent, h₃⟩ := Option.bind_eq_some_iff.1 h₂
  obtain ⟨d, rfl, hz⟩ := integerDigits?_eq_some hwhole
  obtain ⟨f, rfl⟩ := afterFraction?_eq_some hfraction
  obtain ⟨e, rfl⟩ := afterExponent?_eq_some hexponent
  simp only at h₃
  split_ifs at h₃ with hrest
  obtain rfl := List.isEmpty_iff.1 hrest
  exact ⟨⟨negative, d, f, e, hz⟩, rfl, by simp [Grammar.Numeral.unsignedText]⟩

theorem isSome_ofText?_iff (text : Bytes) :
    (ofText? text).isSome = true ↔ ∃ n : Grammar.Numeral, n.text = text := by
  constructor
  · intro h
    obtain ⟨m, hm⟩ := Option.isSome_iff_exists.1 h
    cases text with
    | nil => cases hm
    | cons b tail =>
      rw [ofText?_cons] at hm
      split_ifs at hm with hb
      · obtain ⟨n, hneg, rfl⟩ := ofUnsigned?_eq_some hm
        exact ⟨n, by rw [Grammar.Numeral.text, Grammar.Numeral.signText, hneg, hb]; rfl⟩
      · obtain ⟨n, hneg, ht⟩ := ofUnsigned?_eq_some hm
        exact ⟨n, by rw [Grammar.Numeral.text, Grammar.Numeral.signText, hneg, ht]; rfl⟩
  · rintro ⟨n, rfl⟩
    rw [ofText?_text, Option.isSome_some]

end Numeral

namespace Grammar.Numeral

def integer (n : Grammar.Numeral) : Int :=
  JsonCodec.Numeral.signed n.negative (Decimal.value n.whole.text)

theorem magnitude_integral {n : Grammar.Numeral} (h : n.isIntegral = true) :
    n.magnitude = Decimal.value n.whole.text := by
  simp only [isIntegral, Bool.and_eq_true, Option.isNone_iff_eq_none] at h
  simp [magnitude, digits, power, h.1, h.2, Digits.textOf, Exponent.valueOf]

end Grammar.Numeral

namespace Value

theorem floatValue?_text (n : Grammar.Numeral) :
    Numeral.floatValue? n.text =
      if n.magnitude < Binary64.overflowLimit then
        some (.float (Binary64.nearest n.negative n.magnitude))
      else none := by
  rw [Numeral.floatValue?, Binary64.read_text]
  split_ifs <;> rfl

theorem ofNumeral?_integral (big : Option BigInteger) {n : Grammar.Numeral}
    (h : n.isIntegral = true) :
    ofNumeral? big n.text = match ofInteger? n.integer with
      | some v => some v
      | none => match big with
        | some build => some (build n.text)
        | none => Numeral.floatValue? n.text := by
  rw [ofNumeral?, Numeral.ofText?_text]
  simp only [h, ↓reduceIte, Numeral.integralValue?,
    Numeral.narrowValue?_eq n.negative n.whole n.zero_alone]
  change (match if -2 ^ 63 ≤ n.integer ∧ n.integer < 2 ^ 64 then ofInteger? n.integer else none with
    | some v => some v
    | none => _) = _
  by_cases hn : -2 ^ 63 ≤ n.integer ∧ n.integer < 2 ^ 64
  · have hs : (ofInteger? n.integer).isSome = true := by
      rw [isSome_ofInteger?]
      omega
    obtain ⟨v, hv⟩ := Option.isSome_iff_exists.1 hs
    rw [if_pos hn, hv]
  · rw [if_neg hn, Numeral.wideValue?_eq n.negative n.whole.text n.whole.isDigit hn]
    rfl

theorem ofNumeral?_float (big : Option BigInteger) {n : Grammar.Numeral}
    (h : n.isIntegral = false) : ofNumeral? big n.text = Numeral.floatValue? n.text := by
  rw [ofNumeral?, Numeral.ofText?_text]
  simp [h]

/-- A numeral that has a value without a builder for big integers has one with any. -/
theorem isSome_ofNumeral?_of_none (big : Option BigInteger) {n : Grammar.Numeral}
    (h : (ofNumeral? none n.text).isSome = true) : (ofNumeral? big n.text).isSome = true := by
  cases hi : n.isIntegral with
  | false => rwa [ofNumeral?_float big hi, ← ofNumeral?_float none hi]
  | true =>
    rw [ofNumeral?_integral _ hi] at h ⊢
    cases hz : ofInteger? n.integer with
    | some v => rfl
    | none =>
      cases big with
      | some build => rfl
      | none => simpa [hz] using h

end Value
end JsonCodec
