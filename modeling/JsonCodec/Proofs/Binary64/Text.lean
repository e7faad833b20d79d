import Mathlib
import JsonCodec.Binary64.Text
import JsonCodec.Proofs.Decimal.Writing
import JsonCodec.Proofs.Numeral
import JsonCodec.Proofs.Binary64.Shortest

set_option autoImplicit false

namespace JsonCodec

namespace Grammar

def Digits.zero : Digits := ⟨Byte.zero, [], fun b hb => by rw [List.mem_singleton.1 hb]; rfl⟩

theorem Digits.exists_text {text : Bytes} (h : text ≠ [])
    (hd : ∀ b ∈ text, Byte.isDigit b = true) : ∃ d : Digits, d.text = text := by
  cases text with
  | nil => exact absurd rfl h
  | cons b more => exact ⟨⟨b, more, hd⟩, rfl⟩

theorem ofNat_ne_nil (n : Nat) : Decimal.ofNat n ≠ [] := by
  obtain ⟨b, hb, -⟩ := Decimal.head?_ofNat n
  intro h
  rw [h] at hb
  cases hb

theorem exists_ofNat (n : Nat) :
    ∃ d : Digits, d.text = Decimal.ofNat n ∧ (d.first = Byte.zero → d.more = []) := by
  obtain ⟨d, hd⟩ := Digits.exists_text (ofNat_ne_nil n) (Decimal.isDigit_ofNat n)
  refine ⟨d, hd, fun hz => ?_⟩
  obtain ⟨b, hb, hzero⟩ := Decimal.head?_ofNat n
  rw [← hd] at hb
  obtain rfl : d.first = b := Option.some.inj hb
  have h0 : Decimal.ofNat 0 = [Byte.zero] := rfl
  rw [hzero.1 hz, h0] at hd
  exact (List.cons.inj hd).2

theorem exists_ofInt (z : Int) :
    ∃ n : Numeral, n.text = Decimal.ofInt z ∧ n.isIntegral = true ∧ n.integer = z := by
  obtain ⟨d, hd, hz⟩ := exists_ofNat z.natAbs
  refine ⟨⟨decide (z < 0), d, none, none, hz⟩, ?_, rfl, ?_⟩
  · rw [Decimal.ofInt, ← hd]
    by_cases h : z < 0
    · simp [Numeral.text, Numeral.signText, Numeral.unsignedText, Digits.pointTextOf,
        Exponent.textOf, h]
    · simp [Numeral.text, Numeral.signText, Numeral.unsignedText, Digits.pointTextOf,
        Exponent.textOf, h]
  · rw [Numeral.integer, hd, Decimal.value_ofNat, JsonCodec.Numeral.signed]
    simp only [decide_eq_true_eq]
    split_ifs <;> omega

def WritesFloat (text : Bytes) (q : ℚ) : Prop :=
  ∃ n : Numeral, n.negative = false ∧ n.text = text ∧ n.isIntegral = false ∧ n.magnitude = q

theorem writesFloat_fraction {whole fraction : Digits}
    (hz : whole.first = Byte.zero → whole.more = []) :
    WritesFloat (whole.text ++ Byte.point :: fraction.text)
      (Decimal.value (whole.text ++ fraction.text) * (10 : ℚ) ^ (-(fraction.text.length : Int))) := by
  refine ⟨⟨false, whole, some fraction, none, hz⟩, rfl, ?_, rfl, ?_⟩
  · simp [Numeral.text, Numeral.signText, Numeral.unsignedText, Digits.pointTextOf,
      Exponent.textOf]
  · simp [Numeral.magnitude, Numeral.digits, Numeral.power, Digits.textOf, Exponent.valueOf]

theorem WritesFloat.any {text : Bytes} {q : ℚ} (h : WritesFloat text q) :
    text.any Binary64.isFloatMark = true := by
  obtain ⟨n, -, rfl, hi, -⟩ := h
  rw [List.any_eq_true]
  cases hf : n.fraction with
  | some d => exact ⟨Byte.point, by simp [Numeral.text, Numeral.unsignedText, hf,
      Digits.pointTextOf], rfl⟩
  | none =>
    cases he : n.exponent with
    | some e => exact ⟨e.mark, by simp [Numeral.text, Numeral.unsignedText, he, Exponent.textOf,
        Exponent.text], by rw [Binary64.isFloatMark, e.isMark, Bool.or_true]⟩
    | none => simp [Numeral.isIntegral, hf, he] at hi

end Grammar

namespace Decimal

theorem value_zeros (k : Nat) (ds : Bytes) :
    value (List.replicate k Byte.zero ++ ds) = value ds := by
  induction k with
  | zero => rfl
  | succ k ih =>
    have h0 : Byte.digitValue Byte.zero = 0 := rfl
    rw [List.replicate_succ, List.cons_append, value_cons, ih, h0, zero_mul, zero_add]

theorem value_zero_cons (ds : Bytes) : value (Byte.zero :: ds) = value ds := value_zeros 1 ds

end Decimal

namespace Binary64
open Grammar

theorem writesFloat_whole (n : Nat) :
    WritesFloat (Decimal.ofNat n ++ [Byte.point, Byte.zero]) n := by
  obtain ⟨d, hd, hz⟩ := exists_ofNat n
  have h := @writesFloat_fraction d Digits.zero hz
  have hvalue : Decimal.value (Decimal.ofNat n ++ [Byte.zero]) = n * 10 := by
    rw [Decimal.value_append, Decimal.value_ofNat]
    rfl
  rw [hd, Digits.zero, Digits.text, hvalue] at h
  simpa using h

theorem writesFloat_withPoint {n places : Nat} (hn : n ≠ 0) (hp : 0 < places) :
    WritesFloat (withPoint (Decimal.ofNat n) places) (n * (10 : ℚ) ^ (-(places : Int))) := by
  have hdigit := Decimal.isDigit_ofNat n
  unfold withPoint
  split_ifs with h
  · have htake : (Decimal.ofNat n).take ((Decimal.ofNat n).length - places) ≠ [] := by
      rw [ne_eq, List.take_eq_nil_iff, not_or]
      exact ⟨by omega, ofNat_ne_nil n⟩
    have hdrop : (Decimal.ofNat n).drop ((Decimal.ofNat n).length - places) ≠ [] := by
      rw [ne_eq, List.drop_eq_nil_iff]
      omega
    obtain ⟨w, hw⟩ := Digits.exists_text htake fun b hb => hdigit b (List.mem_of_mem_take hb)
    obtain ⟨f, hf⟩ := Digits.exists_text hdrop fun b hb => hdigit b (List.mem_of_mem_drop hb)
    have hz : w.first = Byte.zero → w.more = [] := by
      intro hfirst
      obtain ⟨b, hb, hzero⟩ := Decimal.head?_ofNat n
      have hhead := congrArg List.head? hw
      rw [List.head?_take, if_neg (by omega), hb] at hhead
      obtain rfl : w.first = b := Option.some.inj hhead
      exact absurd (hzero.1 hfirst) hn
    have hlen : (Decimal.ofNat n).length - ((Decimal.ofNat n).length - places) = places := by omega
    have hwrites := @writesFloat_fraction w f hz
    rw [hw, hf, List.take_append_drop, Decimal.value_ofNat, List.length_drop, hlen] at hwrites
    exact hwrites
  · have hne : List.replicate (places - (Decimal.ofNat n).length) Byte.zero ++ Decimal.ofNat n ≠ [] :=
      List.append_ne_nil_of_right_ne_nil _ (ofNat_ne_nil n)
    obtain ⟨f, hf⟩ := Digits.exists_text hne fun b hb => by
      rcases List.mem_append.1 hb with hb | hb
      · rw [List.eq_of_mem_replicate hb]
        rfl
      · exact hdigit b hb
    have hlen : f.text.length = places := by
      rw [hf, List.length_append, List.length_replicate]
      omega
    have hwrites := @writesFloat_fraction Digits.zero f fun _ => rfl
    have hzero : Digits.zero.text = [Byte.zero] := rfl
    rw [hlen, hzero, List.singleton_append, List.singleton_append, Decimal.value_zero_cons, hf,
      Decimal.value_zeros, Decimal.value_ofNat] at hwrites
    exact hwrites

theorem exists_exponentText (e : Int) :
    ∃ x : Exponent, x.text = exponentText e ∧ x.value = e := by
  have hdigit := Decimal.isDigit_ofNat e.natAbs
  obtain ⟨d, hd, hvalue⟩ : ∃ d : Digits, d.text =
      (if (Decimal.ofNat e.natAbs).length < 2 then Byte.zero :: Decimal.ofNat e.natAbs
        else Decimal.ofNat e.natAbs) ∧ Decimal.value d.text = e.natAbs := by
    split_ifs
    · refine ⟨⟨Byte.zero, Decimal.ofNat e.natAbs, ?_⟩, rfl, ?_⟩
      · rintro b (_ | ⟨_, hb⟩)
        · rfl
        · exact hdigit b hb
      · rw [Digits.text, Decimal.value_zero_cons, Decimal.value_ofNat]
    · obtain ⟨d, hd, -⟩ := exists_ofNat e.natAbs
      exact ⟨d, hd, by rw [hd, Decimal.value_ofNat]⟩
  refine ⟨⟨0x65, some (if e < 0 then Byte.minus else Byte.plus), d, rfl, ?_⟩, ?_, ?_⟩
  · rintro b ⟨⟩
    split_ifs <;> rfl
  · rw [Exponent.text, hd]
    rfl
  · rw [Exponent.value, hvalue]
    have hsign : ¬ Byte.plus = Byte.minus := by decide
    by_cases h : e < 0
    · simp only [h, ↓reduceIte]
      omega
    · simp only [h, ↓reduceIte, Option.some.injEq, hsign]
      omega

theorem writesFloat_scientificText (d : Scientific) :
    WritesFloat (scientificText d) d.number := by
  obtain ⟨w, hw, -⟩ := exists_ofNat d.digits
  have hvalue := Decimal.value_ofNat d.digits
  obtain ⟨x, hx, hexp⟩ := exists_exponentText (d.exponent + w.more.length)
  obtain ⟨f, hf, hpoint⟩ : ∃ f : Option Digits, Digits.textOf f = w.more ∧
      Digits.pointTextOf f = if w.more.isEmpty then [] else Byte.point :: w.more := by
    cases hmore : w.more with
    | nil => exact ⟨none, rfl, rfl⟩
    | cons b more =>
      refine ⟨some ⟨b, more, ?_⟩, rfl, rfl⟩
      intro c hc
      exact w.isDigit c (List.mem_cons_of_mem _ (by rw [hmore]; exact hc))
  have hdrop : (Decimal.ofNat d.digits).drop 1 = w.more := by rw [← hw]; rfl
  have htake : (Decimal.ofNat d.digits).take 1 = [w.first] := by rw [← hw]; rfl
  refine ⟨⟨false, ⟨w.first, [], ?_⟩, f, some x, fun _ => rfl⟩, rfl, ?_, ?_, ?_⟩
  · intro b hb
    rw [List.mem_singleton.1 hb]
    exact w.isDigit _ List.mem_cons_self
  · simp [Numeral.text, Numeral.signText, Numeral.unsignedText, Exponent.textOf, Digits.text,
      scientificText, hdrop, htake, hpoint, hx]
  · simp [Numeral.isIntegral]
  · have hdigits : [w.first] ++ w.more = Decimal.ofNat d.digits := hw
    simp only [Grammar.Numeral.magnitude, Grammar.Numeral.digits, Grammar.Numeral.power,
      Digits.text, hf, hdigits, hvalue, Exponent.valueOf, hexp, add_sub_cancel_right,
      Scientific.number]

theorem markFloat_of_writes {text : Bytes} {q : ℚ} (h : WritesFloat text q) :
    markFloat text = text := if_pos h.any

theorem isDigit_of_isFloatMark {b : UInt8} (h : isFloatMark b = true) : Byte.isDigit b = false := by
  revert b
  decide +kernel

theorem markFloat_ofNat (n : Nat) :
    markFloat (Decimal.ofNat n) = Decimal.ofNat n ++ [Byte.point, Byte.zero] := by
  apply if_neg
  intro h
  obtain ⟨b, hb, hm⟩ := List.any_eq_true.1 h
  have hd := Decimal.isDigit_ofNat n b hb
  rw [isDigit_of_isFloatMark hm] at hd
  cases hd

theorem roundHalfEven_mul (k : Nat) {b : Nat} (hb : 0 < b) : roundHalfEven (k * b) b = k := by
  simp [roundHalfEven, Nat.mul_div_cancel _ hb, hb.ne]

theorem units_ofNat_mod_one {n : Nat} (h : (ofNat n).isFinite = true) :
    (ofNat n).units % one = 0 := by
  obtain ⟨shift, r, hcount, hr, hs, hround⟩ := countOf_spec (n * one) Nat.one_pos
  have hmin : min (countOf (n * one) 1) infiniteMagnitude < signBit :=
    (Nat.min_le_right _ _).trans_lt infiniteMagnitude_lt
  have hm : (ofNat n).magnitude = countOf (n * one) 1 := by
    rw [isFinite, decide_eq_true_eq] at h
    rw [ofNat, ofRatio_def, magnitude_ofMagnitude _ hmin] at h ⊢
    omega
  have hunits : (ofNat n).units = r * 2 ^ shift := by
    rw [units_eq, hm, hcount, unitsOf_eq shift r hr (hs.imp_right And.left)]
  rw [hunits, one_eq]
  apply Nat.mod_eq_zero_of_dvd
  rcases Nat.lt_or_ge shift 1074 with hlt | hge
  · -- the unit of the significand is a fraction of one, so that nothing is rounded
    have hsplit : n * one = n * 2 ^ (1074 - shift) * (1 * 2 ^ shift) := by
      rw [one_eq, one_mul, mul_assoc, ← pow_add, Nat.sub_add_cancel hlt.le]
    rw [hsplit, roundHalfEven_mul _ (by positivity)] at hround
    rw [hround, mul_assoc, ← pow_add, Nat.sub_add_cancel hlt.le]
    exact dvd_mul_left _ _
  · exact (pow_dvd_pow 2 hge).mul_left r

theorem writesFloat_exact {x : Binary64} (h : x.units % one = 0) :
    WritesFloat (Decimal.ofNat (x.units / one) ++ [Byte.point, Byte.zero]) (x.units / one) := by
  have hwrites := writesFloat_whole (x.units / one)
  rwa [Nat.cast_div (Nat.dvd_of_mod_eq_zero h) cast_one_ne_zero] at hwrites

def ReadsBack (text : Bytes) (x : Binary64) : Prop :=
  ∃ q, WritesFloat text q ∧ nearest false q = x

theorem readsBack_exact {x : Binary64} (hx : x.isFinite = true) (hs : x.isNegative = false)
    (h : x.units % one = 0) :
    ReadsBack (Decimal.ofNat (x.units / one) ++ [Byte.point, Byte.zero]) x := by
  refine ⟨_, writesFloat_exact h, ?_⟩
  rw [← hs, nearest_self hx]

theorem readsBack_shortestText {x : Binary64} (hx : x.isFinite = true) (hs : x.isNegative = false)
    (h0 : x.magnitude ≠ 0) : ReadsBack (markFloat (shortestText x)) x := by
  have hback := nearest_shortest hx hs h0
  have hne : (shortest x).digits ≠ 0 := by
    intro hzero
    rw [Scientific.number, hzero, Nat.cast_zero, zero_mul, nearest_zero] at hback
    rw [← hback] at h0
    exact h0 (magnitude_ofMagnitude false (by decide))
  rw [shortestText]
  split_ifs
  · cases he : (shortest x).exponent with
    | ofNat e =>
      cases e with
      | zero =>
        change ReadsBack (markFloat (Decimal.ofNat (shortest x).digits)) x
        rw [markFloat_ofNat]
        refine ⟨_, writesFloat_whole _, ?_⟩
        rw [Scientific.number, he, Int.ofNat_eq_natCast, Nat.cast_zero, zpow_zero, mul_one] at hback
        exact hback
      | succ e =>
        change ReadsBack (markFloat (Decimal.ofNat (x.units / one))) x
        rw [markFloat_ofNat]
        have hwhole : ofNat ((shortest x).digits * 10 ^ (e + 1)) = x := by
          rw [Scientific.number, he, Int.ofNat_eq_natCast, zpow_natCast] at hback
          rw [ofNat, ofRatio_eq false _ Nat.one_pos, Nat.cast_one, div_one, Nat.cast_mul,
            Nat.cast_pow, Nat.cast_ofNat]
          exact hback
        have hmod := units_ofNat_mod_one (hwhole.symm ▸ hx)
        rw [hwhole] at hmod
        exact readsBack_exact hx hs hmod
    | negSucc e =>
      have hwrites := @writesFloat_withPoint _ (e + 1) hne (Nat.succ_pos e)
      refine ⟨_, ?_, hback⟩
      rw [markFloat_of_writes hwrites, Scientific.number, he, Int.negSucc_eq]
      exact_mod_cast hwrites
  · have hwrites := writesFloat_scientificText (shortest x)
    exact ⟨_, by rwa [markFloat_of_writes hwrites], hback⟩

theorem whole?_eq_some {x : Binary64} {n : Nat} (h : x.whole? = some n) :
    x.units % one = 0 ∧ x.units / one = n := by
  rw [whole?] at h
  split_ifs at h with hmod
  exact ⟨hmod, Option.some.inj h⟩

theorem whole?_of_zero {x : Binary64} (h0 : x.magnitude = 0) : x.whole? = some 0 := by
  have hu0 : unitsOf 0 = 0 := by decide
  rw [whole?, units_eq, h0, hu0, Nat.zero_mod, Nat.zero_div, if_pos rfl]

/-- A magnitude is written in one of two ways, the second of which never meets a zero. -/
theorem magnitudeText_cases (x : Binary64) :
    (∃ n, x.whole? = some n ∧ n ≤ exactLimit ∧
      magnitudeText x = Decimal.ofNat n ++ [Byte.point, Byte.zero]) ∨
      x.magnitude ≠ 0 ∧ magnitudeText x = markFloat (shortestText x) := by
  have hlimit : exactLimit < Decimal.wordLimit := by decide
  unfold magnitudeText
  split
  · rename_i n hn
    split_ifs with hle
    · exact .inl ⟨n, hn, hle, by
        rw [Decimal.ofWord_eq, Decimal.toNat_toUInt64 (hle.trans_lt hlimit)]⟩
    · refine .inr ⟨fun h0 => hle ?_, rfl⟩
      obtain rfl : n = 0 := Option.some.inj (hn.symm.trans (whole?_of_zero h0))
      exact Nat.zero_le _
  · rename_i hnone
    exact .inr ⟨fun h0 => by simp [whole?_of_zero h0] at hnone, rfl⟩

theorem readsBack_magnitudeText {x : Binary64} (hx : x.isFinite = true)
    (hs : x.isNegative = false) : ReadsBack (magnitudeText x) x := by
  rcases magnitudeText_cases x with ⟨n, hn, -, htext⟩ | ⟨h0, htext⟩
  · obtain ⟨hmod, rfl⟩ := whole?_eq_some hn
    rw [htext]
    exact readsBack_exact hx hs hmod
  · rw [htext]
    exact readsBack_shortestText hx hs h0

def unsigned (x : Binary64) : Binary64 := ofMagnitude false x.magnitude

def withSign (negative : Bool) (text : Bytes) : Bytes :=
  if negative then Byte.minus :: text else text

theorem magnitude_unsigned (x : Binary64) : x.unsigned.magnitude = x.magnitude :=
  magnitude_ofMagnitude false x.magnitude_lt

theorem isNegative_unsigned (x : Binary64) : x.unsigned.isNegative = false :=
  isNegative_ofMagnitude false x.magnitude_lt

theorem isFinite_unsigned {x : Binary64} (hx : x.isFinite = true) : x.unsigned.isFinite = true := by
  rwa [isFinite, magnitude_unsigned]

theorem text_eq (x : Binary64) : x.text = withSign x.isNegative (magnitudeText x.unsigned) := by
  have hx := ofMagnitude_eq x
  unfold text withSign
  cases hs : x.isNegative with
  | true => rw [if_pos rfl, if_pos rfl, neg, hs, Bool.not_true, unsigned]
  | false =>
    rw [hs] at hx
    rw [if_neg Bool.false_ne_true, if_neg Bool.false_ne_true, unsigned, hx]

theorem nearest_of_unsigned {x : Binary64} {q : ℚ} (hq : 0 ≤ q) (h : nearest false q = x.unsigned) :
    nearest x.isNegative q = x := by
  have hx := ofMagnitude_eq x
  cases hs : x.isNegative with
  | true =>
    rw [hs] at hx
    have hneg := neg_nearest false hq
    rw [h, unsigned, neg_ofMagnitude false x.magnitude_lt, Bool.not_false, hx] at hneg
    exact hneg.symm
  | false =>
    rw [hs] at hx
    rw [h, unsigned, hx]

theorem ReadsBack.signed {text : Bytes} {x : Binary64} (h : ReadsBack text x.unsigned) :
    ∃ n : Grammar.Numeral, n.text = withSign x.isNegative text ∧ n.isIntegral = false ∧
      n.negative = x.isNegative ∧ nearest n.negative n.magnitude = x := by
  obtain ⟨q, ⟨n, hn, rfl, hi, rfl⟩, hq⟩ := h
  refine ⟨{ n with negative := x.isNegative }, ?_, hi, rfl,
    nearest_of_unsigned (magnitude_nonneg n) hq⟩
  rw [withSign, Grammar.Numeral.text, Grammar.Numeral.text, Grammar.Numeral.signText,
    Grammar.Numeral.signText, hn]
  cases x.isNegative <;> rfl

/-- A finite double is written as a numeral of its sign that it is nearest to. -/
theorem exists_text {x : Binary64} (hx : x.isFinite = true) :
    ∃ n : Grammar.Numeral, n.text = x.text ∧ n.isIntegral = false ∧ n.negative = x.isNegative ∧
      nearest n.negative n.magnitude = x := by
  rw [text_eq]
  exact (readsBack_magnitudeText (isFinite_unsigned hx) x.isNegative_unsigned).signed

theorem magnitude_lt_of_isFinite {n : Grammar.Numeral}
    (h : (nearest n.negative n.magnitude).isFinite = true) : n.magnitude < overflowLimit := by
  rw [← not_le, ← isInfinite_nearest n.negative (magnitude_nonneg n)]
  simp only [isFinite, decide_eq_true_eq] at h
  simp only [isInfinite, beq_iff_eq]
  exact h.ne

theorem exists_numeral {x : Binary64} (hx : x.isFinite = true) :
    ∃ n : Grammar.Numeral, n.text = x.text ∧
      ∀ big, Value.ofNumeral? big n.text = some (.float x) := by
  obtain ⟨n, htext, hi, -, rfl⟩ := exists_text hx
  refine ⟨n, htext, fun big => ?_⟩
  rw [Value.ofNumeral?_float big hi, Value.floatValue?_text, if_pos (magnitude_lt_of_isFinite hx)]

end Binary64
end JsonCodec
