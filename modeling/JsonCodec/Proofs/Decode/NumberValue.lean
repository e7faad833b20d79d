import Mathlib
import JsonCodec.Proofs.Numeral

set_option autoImplicit false

namespace JsonCodec
open Grammar Runs

namespace DigitWord

structure Holds (w : DigitWord) (n c f : Nat) : Prop where
  value : w.value.toNat = n
  count : w.count = c
  fraction : w.fraction = f
  overflow : w.overflow = false
  bounded : n < 10 ^ c

theorem holds_empty : Holds empty 0 0 0 := ⟨rfl, rfl, rfl, rfl, by decide⟩

theorem push_bounded {n c d : Nat} (h : n < 10 ^ c) (hd : d < 10) :
    n * 10 + d < 10 ^ (c + 1) := by
  rw [pow_succ]
  omega

theorem toNat_push {w : UInt64} {b : UInt8} (hb : Byte.isDigit b = true)
    (hroom : w.toNat * 10 + Byte.digitValue b < 2 ^ 64) :
    (w * 10 + (b - Byte.zero).toUInt64).toNat = w.toNat * 10 + Byte.digitValue b := by
  rw [UInt64.toNat_add, UInt64.toNat_mul, Decimal.toNat_digit hb]
  simp
  omega

theorem push_value (n : Nat) (b : UInt8) (ds : Bytes) :
    n * 10 ^ (b :: ds).length + Decimal.value (b :: ds) =
      (n * 10 + Byte.digitValue b) * 10 ^ ds.length + Decimal.value ds := by
  rw [Decimal.value_cons, List.length_cons, pow_succ]
  ring

def sum (w : DigitWord) (b : UInt8) : Nat := w.value.toNat * 10 + Byte.digitValue b

def push (w : DigitWord) (b : UInt8) : DigitWord :=
  { w with value := w.value * 10 + (b - Byte.zero).toUInt64, count := w.count + 1 }

theorem takeInteger_cons (w : DigitWord) {b : UInt8} (hb : Byte.isDigit b = true) (rest : Bytes) :
    w.takeInteger (b :: rest) =
      if w.sum b < 2 ^ 64 then (w.push b).takeInteger rest
      else ({ w with overflow := true }, rest.dropWhile Byte.isDigit) := by
  have hlt := Decimal.digitValue_lt hb
  have hmost : most.toNat = 2 ^ 64 - 1 := rfl
  have hguard : (decide (most / 10 < w.value) ||
      (w.value == most / 10 && decide (most % 10 < (b - Byte.zero).toUInt64))) = true ↔
      ¬ w.sum b < 2 ^ 64 := by
    simp only [Bool.or_eq_true, decide_eq_true_eq, Bool.and_eq_true, beq_iff_eq,
      UInt64.lt_iff_toNat_lt, ← UInt64.toNat_inj, UInt64.toNat_div, UInt64.toNat_mod, hmost,
      Decimal.toNat_digit hb, sum]
    simp
    omega
  simp only [takeInteger, hb, Bool.not_true, Bool.false_eq_true, ↓reduceIte, hguard, ite_not]
  rfl

theorem takeFraction_cons (w : DigitWord) {b : UInt8} (hb : Byte.isDigit b = true) (rest : Bytes) :
    w.takeFraction (b :: rest) =
      if w.count < maxCount then takeFraction { w.push b with fraction := w.fraction + 1 } rest
      else takeFraction { w with overflow := true } rest := by
  simp only [takeFraction, hb, Bool.not_true, Bool.false_eq_true, ↓reduceIte]
  rfl

theorem Holds.push {w : DigitWord} {n c f : Nat} (h : Holds w n c f) {b : UInt8}
    (hb : Byte.isDigit b = true) (hroom : w.sum b < 2 ^ 64) :
    Holds (w.push b) (n * 10 + Byte.digitValue b) (c + 1) f where
  value := by
    rw [← h.value]
    exact toNat_push hb hroom
  count := congrArg (· + 1) h.count
  fraction := h.fraction
  overflow := h.overflow
  bounded := push_bounded h.bounded (Decimal.digitValue_lt hb)

theorem sum_lt {w : DigitWord} {b : UInt8} (hb : Byte.isDigit b = true)
    (h : w.value.toNat < 10 ^ w.count) (hc : w.count < maxCount) : w.sum b < 2 ^ 64 := by
  have hsum : w.sum b < 10 ^ (w.count + 1) := push_bounded h (Decimal.digitValue_lt hb)
  have hpow : 10 ^ (w.count + 1) ≤ 10 ^ 19 := Nat.pow_le_pow_right (by decide) hc
  omega

theorem holds_takeInteger {w : DigitWord} {n c f : Nat} (h : Holds w n c f)
    (ds : Bytes) (hd : ∀ b ∈ ds, Byte.isDigit b = true)
    (ho : (w.takeInteger ds).1.overflow = false) :
    Holds (w.takeInteger ds).1 (n * 10 ^ ds.length + Decimal.value ds) (c + ds.length) f := by
  induction ds generalizing w n c with
  | nil => simpa [takeInteger] using h
  | cons b ds ih =>
    have hb := hd b List.mem_cons_self
    rw [takeInteger_cons w hb] at ho ⊢
    split_ifs at ho ⊢ with hroom
    have hnext := ih (h.push hb hroom) (fun x hx => hd x (List.mem_cons_of_mem b hx)) ho
    rw [push_value, List.length_cons, Nat.add_comm ds.length, ← Nat.add_assoc]
    exact hnext

theorem overflow_takeFraction {w : DigitWord} (h : w.overflow = true) (ds : Bytes) :
    (w.takeFraction ds).1.overflow = true := by
  induction ds generalizing w with
  | nil => exact h
  | cons b ds ih =>
    simp only [takeFraction]
    split_ifs
    · exact h
    · exact ih h
    · exact ih rfl

/-- Digits behind the point are gathered only while a word holds any such number of digits. -/
theorem holds_takeFraction {w : DigitWord} (ds : Bytes)
    (hd : ∀ b ∈ ds, Byte.isDigit b = true) (ho : (w.takeFraction ds).1.overflow = false)
    (hw : w.overflow = false → ∃ n c f, Holds w n c f) :
    ∃ n c f, Holds w n c f ∧
      Holds (w.takeFraction ds).1 (n * 10 ^ ds.length + Decimal.value ds) (c + ds.length)
        (f + ds.length) ∧ (ds ≠ [] → c + ds.length ≤ maxCount) := by
  induction ds generalizing w with
  | nil =>
    obtain ⟨n, c, f, h⟩ := hw ho
    exact ⟨n, c, f, h, by simpa [takeFraction] using h, fun h => absurd rfl h⟩
  | cons b ds ih =>
    have hb := hd b List.mem_cons_self
    have hds : ∀ x ∈ ds, Byte.isDigit x = true := fun x hx => hd x (List.mem_cons_of_mem b hx)
    rw [takeFraction_cons w hb] at ho ⊢
    split_ifs at ho ⊢ with hcount
    · have hclear : w.overflow = false := by
        by_contra h
        exact absurd ho (by simp [overflow_takeFraction, push, h])
      obtain ⟨n, c, f, h⟩ := hw hclear
      have hroom : w.sum b < 2 ^ 64 := sum_lt hb (by rw [h.value, h.count]; exact h.bounded) hcount
      have hnext := h.push hb hroom
      have hpush : Holds { w.push b with fraction := w.fraction + 1 }
          (n * 10 + Byte.digitValue b) (c + 1) (f + 1) :=
        ⟨hnext.value, hnext.count, congrArg (· + 1) h.fraction, hnext.overflow, hnext.bounded⟩
      obtain ⟨n', c', f', h', hlast, hmax⟩ := ih hds ho fun _ => ⟨_, _, _, hpush⟩
      obtain rfl := h'.value.symm.trans hpush.value
      obtain rfl := h'.count.symm.trans hpush.count
      obtain rfl := h'.fraction.symm.trans hpush.fraction
      rw [h.count] at hcount
      refine ⟨n, c, f, h, ?_, fun _ => ?_⟩
      · rw [push_value, List.length_cons, Nat.add_comm ds.length, ← Nat.add_assoc, ← Nat.add_assoc]
        exact hlast
      · rcases ds with _ | ⟨x, ds⟩
        · exact hcount
        · have := hmax (by simp)
          simp only [List.length_cons] at this ⊢
          omega
    · exact absurd ho (by simp [overflow_takeFraction])

end DigitWord

namespace NumberLiteral

theorem takeExponent_digits (e : Nat) (he : e ≤ maxExponent) (ds : Bytes)
    (hd : ∀ b ∈ ds, Byte.isDigit b = true) :
    (takeExponent e ds).1 = min (e * 10 ^ ds.length + Decimal.value ds) maxExponent := by
  induction ds generalizing e with
  | nil => simp [takeExponent, he]
  | cons b ds ih =>
    have h10 : 1 ≤ 10 ^ ds.length := Nat.one_le_pow _ _ (by decide)
    have hsum : e * 10 ^ (b :: ds).length + Decimal.value (b :: ds) =
        (e * 10 + Byte.digitValue b) * 10 ^ ds.length + Decimal.value ds := by
      rw [Decimal.value_cons, List.length_cons, pow_succ]
      ring
    rw [takeExponent, if_pos (hd b List.mem_cons_self), hsum,
      ih _ (Nat.min_le_right _ _) fun x hx => hd x (List.mem_cons_of_mem b hx)]
    rcases Nat.le_total (e * 10 + Byte.digitValue b) maxExponent with h | h
    · rw [min_eq_left h]
    · rw [min_eq_right h]
      have h₁ := Nat.mul_le_mul_right (10 ^ ds.length) h
      have h₂ : maxExponent ≤ maxExponent * 10 ^ ds.length := Nat.le_mul_of_pos_right _ h10
      omega

theorem heldExponent_eq (e : Exponent) (h : (heldExponent e).natAbs < maxExponent) :
    heldExponent e = e.value := by
  have ht := takeExponent_digits 0 (by decide) e.digits.text e.digits.isDigit
  rw [zero_mul, zero_add] at ht
  rw [heldExponent, ht] at h ⊢
  unfold Exponent.value
  split_ifs at h ⊢ <;> omega

theorem holds_wholeWord (d : Digits) (hz : d.first = Byte.zero → d.more = [])
    (ho : (wholeWord d).overflow = false) :
    ∃ c, DigitWord.Holds (wholeWord d) (Decimal.value d.text) c 0 := by
  rw [wholeWord] at ho ⊢
  by_cases h : d.first = Byte.zero
  · rw [if_pos h]
    refine ⟨0, ?_⟩
    rw [Digits.text, h, hz h]
    exact DigitWord.holds_empty
  · rw [if_neg h] at ho ⊢
    have hd := DigitWord.holds_takeInteger DigitWord.holds_empty d.text d.isDigit ho
    rw [zero_mul, zero_add] at hd
    exact ⟨_, hd⟩

theorem isDigit_textOf (fraction : Option Digits) :
    ∀ b ∈ Digits.textOf fraction, Byte.isDigit b = true := by
  cases fraction with
  | none => simp [Digits.textOf]
  | some d => exact d.isDigit

theorem holds_gathered (n : Grammar.Numeral) (ho : (gathered n).digits.overflow = false) :
    ∃ c, DigitWord.Holds (gathered n).digits (Decimal.value n.digits) c
        (Digits.textOf n.fraction).length ∧
      (Digits.textOf n.fraction).length ≤ DigitWord.maxCount := by
  obtain ⟨m, c, f, hw, hf, hmax⟩ := DigitWord.holds_takeFraction (Digits.textOf n.fraction)
    (isDigit_textOf n.fraction) ho fun h =>
      ⟨_, _, _, (holds_wholeWord n.whole n.zero_alone h).choose_spec⟩
  obtain ⟨c', hc⟩ := holds_wholeWord n.whole n.zero_alone hw.overflow
  obtain rfl := hw.value.symm.trans hc.value
  obtain rfl := hw.fraction.symm.trans hc.fraction
  rw [zero_add] at hf
  refine ⟨c + (Digits.textOf n.fraction).length, ?_, ?_⟩
  · rw [Grammar.Numeral.digits, Decimal.value_append]
    exact hf
  · cases hn : Digits.textOf n.fraction with
    | nil => exact Nat.zero_le _
    | cons b ds =>
      rw [hn] at hmax
      exact (Nat.le_add_left _ _).trans (hmax (by simp))

/-- One operation on two exact doubles gives the nearest double. -/
theorem scale_eq {n : UInt64} (hn : n.toNat ≤ 2 ^ 53) {p : Int} (hp : p.natAbs ≤ exactPower) :
    scale n p = Binary64.nearest false (n.toNat * (10 : ℚ) ^ p) := by
  have hone := Binary64.cast_one_ne_zero
  have hsign (m : Nat) : (Binary64.ofNat m).isNegative = false := by
    rw [Binary64.ofNat_eq, Binary64.isNegative_nearest false (Nat.cast_nonneg m)]
  have hunits : ((Binary64.ofNat n.toNat).units / Binary64.one : ℚ) = n.toNat := by
    rw [Binary64.ofNat_eq, Binary64.units_nearest_natCast false hn, Nat.cast_mul, mul_div_cancel_right₀ _ hone]
  have hten {e : Nat} (he : e ≤ 22) :
      ((Binary64.ofNat (Decimal.powerOfTen e)).units / Binary64.one : ℚ) = 10 ^ e := by
    rw [Binary64.ofNat_eq, Decimal.powerOfTen_eq, Binary64.units_nearest_powerOfTen false he,
      Nat.cast_mul, mul_div_cancel_right₀ _ hone, Nat.cast_pow, Nat.cast_ofNat]
  cases p with
  | ofNat e =>
    have he : e ≤ 22 := hp
    rw [scale, Binary64.mul_eq, hsign, hsign, hunits, hten he, Int.ofNat_eq_natCast, zpow_natCast]
    rfl
  | negSucc e =>
    have he : e + 1 ≤ 22 := hp
    have hpos : 0 < (Binary64.ofNat (Decimal.powerOfTen (e + 1))).units := by
      rw [Binary64.ofNat_eq, Decimal.powerOfTen_eq, Binary64.units_nearest_powerOfTen false he]
      exact Nat.mul_pos (Nat.pow_pos (by decide)) Binary64.one_pos
    rw [scale, Binary64.div_eq _ hpos, hsign, hsign, hunits, hten he, zpow_negSucc, div_eq_mul_inv]
    rfl

theorem power_gathered {n : Grammar.Numeral} (ho : (gathered n).digits.overflow = false)
    (hp : (gathered n).power.natAbs ≤ exactPower) : (gathered n).power = n.power := by
  obtain ⟨c, h, hf⟩ := holds_gathered n ho
  rw [power, h.fraction, Grammar.Numeral.power] at *
  have hmax : DigitWord.maxCount = 19 := rfl
  have hexp : maxExponent = 400 := rfl
  have hexact : exactPower = 22 := rfl
  cases he : n.exponent with
  | none => simp [gathered, he, Exponent.valueOf]
  | some e =>
    have hg : (gathered n).exponent = heldExponent e := by simp [gathered, he]
    rw [hg] at hp ⊢
    rw [heldExponent_eq e (by omega), Exponent.valueOf]

theorem magnitude_lt_limit {n : Nat} (hn : n ≤ 2 ^ 53) {p : Int} (hp : p.natAbs ≤ exactPower) :
    (n * (10 : ℚ) ^ p) < Binary64.overflowLimit := by
  have h10 : (10 : ℚ) ^ p ≤ 10 ^ 22 := by
    rw [← zpow_natCast]
    apply zpow_le_zpow_right₀ (by norm_num)
    have : exactPower = 22 := rfl
    push_cast
    omega
  have hn' : (n : ℚ) ≤ 2 ^ 53 := by exact_mod_cast hn
  calc (n * (10 : ℚ) ^ p) ≤ 2 ^ 53 * 10 ^ 22 := by gcongr
    _ < 1 * 2 ^ 200 := by norm_num
    _ ≤ Binary64.overflowLimit := by
      rw [Binary64.overflowLimit]
      refine mul_le_mul (by norm_num) ?_ (by positivity) (by norm_num)
      exact pow_le_pow_right₀ (by norm_num) (by norm_num)

/-- Nothing is lost by taking the value of what was gathered. -/
theorem ofNumeral?_eq_value? (big : Option BigInteger) {n : Grammar.Numeral} {v : Value}
    (h : (gathered n).value? = some v) : Value.ofNumeral? big n.text = some v := by
  have hfloat : (gathered n).isFloat = !n.isIntegral := rfl
  have hneg : (gathered n).negative = n.negative := rfl
  rw [value?] at h
  cases hi : n.isIntegral with
  | true =>
    rw [hfloat, hi, if_neg (by simp)] at h
    cases ho : (gathered n).digits.overflow with
    | true => simp [ho] at h
    | false =>
      obtain ⟨c, hd, -⟩ := holds_gathered n ho
      have hwhole : Decimal.value n.digits = Decimal.value n.whole.text := by
        simp only [Grammar.Numeral.isIntegral, Bool.and_eq_true, Option.isNone_iff_eq_none] at hi
        simp [Grammar.Numeral.digits, hi.1, Digits.textOf]
      rw [ho, if_neg Bool.false_ne_true, hneg, Numeral.ofWord?_eq, hd.value, hwhole] at h
      split at h
      · cases h
      · rw [Value.ofNumeral?_integral big hi, Grammar.Numeral.integer, h]
  | false =>
    rw [hfloat, hi, if_pos (by simp)] at h
    cases he : (gathered n).isExact with
    | false => simp [he] at h
    | true =>
      rw [he, if_pos rfl] at h
      simp only [isExact, Bool.and_eq_true, Bool.not_eq_true', decide_eq_true_eq] at he
      obtain ⟨⟨ho, hv⟩, hp⟩ := he
      obtain ⟨c, hd, -⟩ := holds_gathered n ho
      have hpower := power_gathered ho hp
      have hle : (gathered n).digits.value.toNat ≤ 2 ^ 53 := UInt64.le_iff_toNat_le.1 hv
      have hx := scale_eq hle hp
      have hlimit := magnitude_lt_limit hle hp
      rw [hd.value, hpower] at hx hlimit
      rw [Value.ofNumeral?_float big hi, Value.floatValue?_text, Grammar.Numeral.magnitude,
        if_pos hlimit, ← h, hneg]
      simp only [hpower, hx, Option.some.injEq, Value.float.injEq]
      cases n.negative with
      | true =>
        rw [if_pos rfl, Binary64.neg_nearest false (by positivity)]
        rfl
      | false => rw [if_neg Bool.false_ne_true]

theorem minusPart_run (text : Bytes) :
    minusPart text = match text with
      | [] => .ok false []
      | b :: rest => if b = Byte.minus then .ok true rest else .ok false (b :: rest) := by
  cases text with
  | nil => rfl
  | cons b rest =>
    by_cases hb : b = 0x2D
    · subst hb
      rfl
    · simp [minusPart, bind_run, hb]

def unsignedValue (o : DecodeOptions) (extent : Extent) (start : Bytes) (negative : Bool)
    (text : Bytes) : EStateM.Result Fault Bytes Value :=
  match unsigned extent negative text with
  | .error fault rest => .error fault rest
  | .ok literal rest =>
    match literal.value? with
    | some v => .ok v rest
    | none =>
      match Value.ofNumeral? o.bigInteger (start.take (start.length - rest.length)) with
      | some v => .ok v rest
      | none => .error .numberOutOfRange start

theorem value_run (o : DecodeOptions) (extent : Extent) (start : Bytes) :
    value o extent start = match minusPart start with
      | .error fault rest => .error fault rest
      | .ok negative text => match text with
        | [] => .error .unexpectedEnd []
        | b :: rest =>
          if negative && o.dialect.hasNonFinite && b == 0x49 then
            match Scanner.word infinityWord (b :: rest) with
            | .error fault rest => .error fault rest
            | .ok _ rest => .ok (.float (.infinity true)) rest
          else if !Byte.isDigit b then .error .invalidNumber (b :: rest)
          else unsignedValue o extent start negative (b :: rest) := by
  simp only [value, bind_run, get_run]
  cases minusPart start with
  | error e s => rfl
  | ok negative text =>
    rcases text with _ | ⟨b, rest⟩
    · rfl
    · simp only
      split
      · simp only [bind_run]
        cases Scanner.word infinityWord (b :: rest) <;> rfl
      · split
        · rfl
        · simp only [bind_run, unsignedValue]
          cases unsigned extent negative (b :: rest) with
          | error e s => rfl
          | ok literal s =>
            simp only
            cases literal.value? with
            | some v => rfl
            | none =>
              simp only [bind_run, get_run]
              cases Value.ofNumeral? o.bigInteger _ <;> rfl

theorem digit_ne_infinity {b : UInt8} (h : Byte.isDigit b = true) : (b == 0x49) = false := by
  rw [beq_eq_false_iff_ne]
  rintro rfl
  exact absurd h (by decide)

theorem minusPart_text (n : Grammar.Numeral) (rest : Bytes) :
    minusPart (n.text ++ rest) = .ok n.negative (n.unsignedText ++ rest) := by
  have hd := n.whole.isDigit n.whole.first List.mem_cons_self
  obtain ⟨tail, htail⟩ : ∃ tail, n.unsignedText ++ rest = n.whole.first :: tail := ⟨_, rfl⟩
  rw [Grammar.Numeral.text, Grammar.Numeral.signText, List.append_assoc, htail]
  cases n.negative with
  | true => rfl
  | false =>
    rw [if_neg Bool.false_ne_true, List.nil_append, minusPart_run]
    exact if_neg (digit_ne_minus hd)

theorem value_text (o : DecodeOptions) (extent : Extent) (n : Grammar.Numeral) (rest : Bytes) :
    value o extent (n.text ++ rest) =
      unsignedValue o extent (n.text ++ rest) n.negative (n.unsignedText ++ rest) := by
  have hd := n.whole.isDigit n.whole.first List.mem_cons_self
  obtain ⟨tail, htail⟩ : ∃ tail, n.unsignedText ++ rest = n.whole.first :: tail := ⟨_, rfl⟩
  rw [value_run, minusPart_text]
  simp only [htail, digit_ne_infinity hd, hd, Bool.and_false, Bool.false_eq_true, ↓reduceIte,
    Bool.not_true]

theorem value_numeral (o : DecodeOptions) (extent : Extent) (n : Grammar.Numeral) (rest : Bytes)
    (h : n.Ends extent rest) :
    value o extent (n.text ++ rest) = match Value.ofNumeral? o.bigInteger n.text with
      | some v => .ok v rest
      | none => .error .numberOutOfRange (n.text ++ rest) := by
  rw [value_text, unsignedValue, unsigned_numeral extent n rest h]
  simp only [List.length_append, Nat.add_sub_cancel, List.take_left']
  cases hv : (gathered n).value? with
  | some v => simp only [ofNumeral?_eq_value? o.bigInteger hv]
  | none => rfl

theorem value_infinity {o : DecodeOptions} (ho : o.dialect.hasNonFinite = true) (extent : Extent)
    (rest : Bytes) :
    value o extent (Byte.minus :: (infinityWord ++ rest)) = .ok (.float (.infinity true)) rest := by
  have hword : Scanner.word infinityWord (infinityWord ++ rest) = .ok ⟨⟩ rest := by
    rw [word_run, if_pos (by simp), List.drop_left']
    rfl
  obtain ⟨tail, htail⟩ : ∃ tail, infinityWord ++ rest = 0x49 :: tail := ⟨_, rfl⟩
  rw [value_run, minusPart_run]
  simp only [↓reduceIte, htail, ho, Bool.and_self, beq_self_eq_true]
  rw [← htail, hword]

theorem exists_minus (text : Bytes) :
    ∃ negative tail, minusPart text = .ok negative tail ∧
      text = (if negative then [Byte.minus] else []) ++ tail := by
  cases text with
  | nil => exact ⟨false, [], rfl, rfl⟩
  | cons b rest =>
    rw [minusPart_run]
    by_cases hb : b = Byte.minus
    · exact ⟨true, rest, if_pos hb, by simp [hb]⟩
    · exact ⟨false, b :: rest, if_neg hb, rfl⟩

/-- What is read as a number is a numeral, or the word for negative infinity. -/
theorem value_eq_ok {o : DecodeOptions} {extent : Extent} {text rest : Bytes} {v : Value}
    (h : value o extent text = .ok v rest) :
    (∃ n : Grammar.Numeral, text = n.text ++ rest ∧ n.Ends extent rest ∧
        Value.ofNumeral? o.bigInteger n.text = some v) ∨
      o.dialect.hasNonFinite = true ∧ text = Byte.minus :: (infinityWord ++ rest) ∧
        v = .float (.infinity true) := by
  have hrun := value_run o extent text
  obtain ⟨negative, tail, hm, htext⟩ := exists_minus text
  rw [hm, h] at hrun
  rcases tail with _ | ⟨b, tail⟩
  · cases hrun
  simp only at hrun
  split at hrun
  · rename_i hinf
    simp only [Bool.and_eq_true, beq_iff_eq] at hinf
    obtain ⟨⟨rfl, ho⟩, rfl⟩ := hinf
    rw [word_run] at hrun
    split_ifs at hrun with hp
    · simp only [EStateM.Result.ok.injEq] at hrun
      obtain ⟨rfl, rfl⟩ := hrun
      obtain ⟨tail', htail⟩ := List.isPrefixOf_iff_prefix.1 hp
      refine .inr ⟨ho, ?_, rfl⟩
      rw [htext, ← htail, List.drop_left]
      rfl
  · split at hrun
    · cases hrun
    · rename_i hd
      rw [unsignedValue] at hrun
      cases hu : unsigned extent negative (b :: tail) with
      | error e s => simp [hu] at hrun
      | ok literal s =>
        obtain ⟨n, hneg, hsplit, hends⟩ := unsigned_eq_ok (by simpa using hd) hu
        have hn : text = n.text ++ s := by
          rw [htext, hsplit, Grammar.Numeral.text, Grammar.Numeral.signText, hneg, List.append_assoc]
        rw [hn, value_numeral o extent n s hends] at h
        cases hv : Value.ofNumeral? o.bigInteger n.text with
        | none => simp [hv] at h
        | some w =>
          simp only [hv, EStateM.Result.ok.injEq] at h
          obtain ⟨rfl, rfl⟩ := h
          exact .inl ⟨n, hn, hends, hv⟩

end NumberLiteral
end JsonCodec
