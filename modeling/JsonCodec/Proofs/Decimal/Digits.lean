import Mathlib
import JsonCodec.Decimal

set_option autoImplicit false

namespace JsonCodec.Decimal

theorem powerOfTen_eq (n : Nat) : powerOfTen n = 10 ^ n := rfl

theorem digitValue_lt {b : UInt8} (h : Byte.isDigit b = true) : Byte.digitValue b < 10 := by
  revert b
  decide +kernel

theorem ofDigit_spec {n : Nat} (h : n < 10) :
    Byte.isDigit (Byte.ofDigit n) = true ∧ Byte.digitValue (Byte.ofDigit n) = n := by
  interval_cases n <;> decide

theorem ofDigit_eq_zero_iff {n : Nat} (h : n < 10) : Byte.ofDigit n = Byte.zero ↔ n = 0 := by
  interval_cases n <;> decide

theorem digitChar_toUInt8 {n : Nat} (h : n < 10) : n.digitChar.toUInt8 = Byte.ofDigit n := by
  interval_cases n <;> decide

theorem toNat_digit {b : UInt8} (h : Byte.isDigit b = true) :
    (b - Byte.zero).toUInt64.toNat = Byte.digitValue b := by
  revert b
  decide +kernel

theorem value_foldl (n : Nat) (ds : Bytes) :
    ds.foldl (fun n b => 10 * n + Byte.digitValue b) n = n * 10 ^ ds.length + value ds := by
  induction ds generalizing n with
  | nil => simp [value]
  | cons b ds ih =>
    have h : value (b :: ds) = (10 * 0 + Byte.digitValue b) * 10 ^ ds.length + value ds := ih _
    rw [List.foldl_cons, ih, h, List.length_cons, pow_succ]
    ring

@[simp] theorem value_nil : value [] = 0 := rfl

theorem value_cons (b : UInt8) (ds : Bytes) :
    value (b :: ds) = Byte.digitValue b * 10 ^ ds.length + value ds := by
  rw [value, List.foldl_cons, value_foldl]
  ring

theorem value_append (xs ys : Bytes) :
    value (xs ++ ys) = value xs * 10 ^ ys.length + value ys := by
  rw [value, List.foldl_append, ← value, value_foldl]

theorem value_singleton (b : UInt8) : value [b] = Byte.digitValue b := by simp [value_cons]

theorem value_lt {ds : Bytes} (h : ∀ b ∈ ds, Byte.isDigit b = true) :
    value ds < 10 ^ ds.length := by
  induction ds with
  | nil => simp
  | cons b ds ih =>
    have hb := digitValue_lt (h b List.mem_cons_self)
    have hd := ih fun c hc => h c (List.mem_cons_of_mem b hc)
    rw [value_cons, List.length_cons, pow_succ]
    nlinarith [Nat.mul_le_mul_right (10 ^ ds.length) (Nat.le_of_lt_succ hb)]

theorem ofNat_eq (n : Nat) :
    ofNat n = if n < 10 then [Byte.ofDigit n] else ofNat (n / 10) ++ [Byte.ofDigit (n % 10)] := by
  rw [ofNat, Nat.toDigits_eq_if (by decide)]
  split
  · rename_i h
    simp [digitChar_toUInt8 h]
  · simp [ofNat, digitChar_toUInt8 (Nat.mod_lt n (by decide))]

theorem isDigit_ofNat (n : Nat) : ∀ b ∈ ofNat n, Byte.isDigit b = true := by
  induction n using Nat.strong_induction_on with
  | _ n ih =>
    intro b hb
    rw [ofNat_eq] at hb
    split at hb
    · rename_i h
      rw [List.mem_singleton.1 hb]
      exact (ofDigit_spec h).1
    · rcases List.mem_append.1 hb with hb | hb
      · exact ih (n / 10) (by omega) b hb
      · rw [List.mem_singleton.1 hb]
        exact (ofDigit_spec (Nat.mod_lt n (by decide))).1

theorem value_ofNat (n : Nat) : value (ofNat n) = n := by
  induction n using Nat.strong_induction_on with
  | _ n ih =>
    rw [ofNat_eq]
    split
    · rename_i h
      rw [value_singleton, (ofDigit_spec h).2]
    · rw [value_append, ih (n / 10) (by omega), value_singleton,
        (ofDigit_spec (Nat.mod_lt n (by decide))).2]
      simp
      omega

/-- Only the numeral of zero starts with a zero. -/
theorem head?_ofNat (n : Nat) : ∃ b, (ofNat n).head? = some b ∧ (b = Byte.zero ↔ n = 0) := by
  induction n using Nat.strong_induction_on with
  | _ n ih =>
    rw [ofNat_eq]
    split
    · rename_i h
      exact ⟨_, rfl, ofDigit_eq_zero_iff h⟩
    · obtain ⟨b, hb, hz⟩ := ih (n / 10) (by omega)
      exact ⟨b, by rw [List.head?_append, hb]; rfl, hz.trans (by omega)⟩

end JsonCodec.Decimal
