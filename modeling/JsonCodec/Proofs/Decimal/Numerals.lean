import Mathlib
import JsonCodec.Proofs.Decimal.Writing
import JsonCodec.Proofs.Numeral

set_option autoImplicit false

namespace JsonCodec.Decimal

structure IsNumeral (n : Nat) (text : Bytes) : Prop where
  ne_nil : text ≠ []
  digit : ∀ b ∈ text, Byte.isDigit b = true
  zero_alone : text.head? = some Byte.zero → text = [Byte.zero]
  value : value text = n

def IsSignedNumeral (z : Int) (text : Bytes) : Prop :=
  ∃ digits, IsNumeral z.natAbs digits ∧ text = if z < 0 then Byte.minus :: digits else digits

theorem isNumeral_ofNat (n : Nat) : IsNumeral n (ofNat n) := by
  obtain ⟨b, hb, hzero⟩ := head?_ofNat n
  refine ⟨fun h => by simp [h] at hb, isDigit_ofNat n, fun h => ?_, value_ofNat n⟩
  rw [hb, Option.some.injEq, hzero] at h
  rw [h]
  rfl

theorem ofDigit_digitValue {b : UInt8} (h : Byte.isDigit b = true) :
    Byte.ofDigit (Byte.digitValue b) = b := by
  revert b
  decide +kernel

theorem IsNumeral.unique {n : Nat} {text : Bytes} (h : IsNumeral n text) : text = ofNat n := by
  induction text using List.reverseRecOn generalizing n with
  | nil => exact absurd rfl h.ne_nil
  | append_singleton text b ih =>
    have hb := h.digit b (by simp)
    have hlt := digitValue_lt hb
    have hvalue := h.value
    rw [value_append, value_singleton, List.length_singleton, pow_one] at hvalue
    by_cases hne : text = []
    · subst hne
      rw [value_nil, zero_mul, zero_add] at hvalue
      rw [ofNat_eq, if_pos (by omega), ← hvalue, ofDigit_digitValue hb, List.nil_append]
    · have hhead : text.head? ≠ some Byte.zero := by
        intro hzero
        have halone := h.zero_alone (by rwa [List.head?_append_of_ne_nil _ hne])
        have hlen := congrArg List.length halone
        exact hne (by simpa using hlen)
      have hinit : IsNumeral (n / 10) text :=
        ⟨hne, fun c hc => h.digit c (List.mem_append_left _ hc), fun hzero => absurd hzero hhead,
          by omega⟩
      -- the digits before the last are no zero, so the number has more than one
      have hpos : n / 10 ≠ 0 := by
        intro hzero
        apply hhead
        rw [ih hinit, hzero]
        rfl
      rw [ofNat_eq, if_neg (by omega), ← ih hinit]
      have hmod : n % 10 = Byte.digitValue b := by omega
      rw [hmod, ofDigit_digitValue hb]

theorem length_ofNat_le {n k : Nat} (hk : 0 < k) (h : n < 10 ^ k) : (ofNat n).length ≤ k := by
  rw [ofNat, List.length_map]
  exact (Nat.length_toDigits_le_iff (by decide) hk).2 h

theorem isSignedNumeral_ofInt (z : Int) : IsSignedNumeral z (ofInt z) :=
  ⟨_, isNumeral_ofNat z.natAbs, rfl⟩

theorem length_ofInt_le {z : Int} {k : Nat} (hk : 0 < k) (h : z.natAbs < 10 ^ k) :
    (ofInt z).length ≤ k + 1 := by
  have hlen := length_ofNat_le hk h
  rw [ofInt]
  split_ifs
  · exact Nat.succ_le_succ hlen
  · omega

theorem length_fill (places n : Nat) (tail : Bytes) :
    (fill places n tail).length = places + tail.length := by
  induction places generalizing n tail with
  | zero => simp [fill]
  | succ places ih =>
    rw [fill_succ, ih, List.length_cons]
    omega

theorem isDigit_fill (places n : Nat) {tail : Bytes} (h : ∀ b ∈ tail, Byte.isDigit b = true) :
    ∀ b ∈ fill places n tail, Byte.isDigit b = true := by
  induction places generalizing n tail with
  | zero => exact h
  | succ places ih =>
    rw [fill_succ]
    refine ih _ fun b hb => ?_
    rcases List.mem_cons.1 hb with rfl | hb
    · exact (ofDigit_spec (Nat.mod_lt n (by decide))).1
    · exact h b hb

theorem value_fill (places n : Nat) (tail : Bytes) (h : n < 10 ^ places) :
    value (fill places n tail) = n * 10 ^ tail.length + value tail := by
  induction places generalizing n tail with
  | zero =>
    obtain rfl : n = 0 := by simpa using h
    simp [fill]
  | succ places ih =>
    rw [pow_succ] at h
    rw [fill_succ, ih _ _ (by omega), value_cons, (ofDigit_spec (Nat.mod_lt n (by decide))).2,
      List.length_cons, pow_succ]
    conv_rhs => rw [← Nat.div_add_mod n 10]
    ring

theorem wordDigits_eq (n : UInt64) : wordDigits n = (ofNat n.toNat).length := by
  rw [← ofWord_eq, ofWord, length_fill, List.length_nil, Nat.add_zero]

def pairs (n : Nat) (tail : Bytes) : Bytes :=
  if n < 10 then Byte.ofDigit n :: tail
  else if n < 100 then Byte.ofDigit (n / 10) :: Byte.ofDigit (n % 10) :: tail
  else pairs (n / 100) (Byte.ofDigit (n % 100 / 10) :: Byte.ofDigit (n % 10) :: tail)

theorem pairs_eq (n : Nat) (tail : Bytes) : pairs n tail = ofNat n ++ tail := by
  fun_induction pairs n tail with
  | case1 n tail h => rw [ofNat_eq, if_pos h, List.singleton_append]
  | case2 n tail h h' =>
    rw [ofNat_eq, if_neg h, ofNat_eq, if_pos (by omega)]
    rfl
  | case3 n tail h h' ih =>
    have h₁ : n % 100 / 10 = n / 10 % 10 := by omega
    have h₂ : n / 10 / 10 = n / 100 := by omega
    rw [ih, ofNat_eq n, if_neg h, ofNat_eq (n / 10), if_neg (by omega), h₁, h₂]
    simp

/-- What is written for integers. -/
structure IntegerText : Prop where
  count : ∀ n : UInt64, wordDigits n = (Nat.toDigits 10 n.toNat).length
  places : ∀ n : UInt64, ofWord n = pairs n.toNat []
  word : ∀ n : UInt64, IsNumeral n.toNat (ofWord n)
  signedWord : ∀ n : Int64, IsSignedNumeral n.toInt (ofSignedWord n)
  wide : ∀ n : BitVec 128, IsNumeral n.toNat (ofWide n)
  signedWide : ∀ n : BitVec 128, IsSignedNumeral n.toInt (ofSignedWide n)
  unique : ∀ n text text', IsNumeral n text → IsNumeral n text' → text = text'
  length_word : ∀ n : UInt64, (ofWord n).length ≤ 20
  length_signedWord : ∀ n : Int64, (ofSignedWord n).length ≤ 20
  length_wide : ∀ n : BitVec 128, (ofWide n).length ≤ 39
  length_signedWide : ∀ n : BitVec 128, (ofSignedWide n).length ≤ 40
  limb : ∀ n : UInt64, n.toNat < 10 ^ 19 → (lowerLimb n).length = 19 ∧
    (∀ b ∈ lowerLimb n, Byte.isDigit b = true) ∧ value (lowerLimb n) = n.toNat
  read : ∀ n : BitVec 128, Numeral.wide? (ofWide n) = some n

theorem integerText : IntegerText where
  count n := by rw [wordDigits_eq, ofNat, List.length_map]
  places n := by rw [ofWord_eq, pairs_eq, List.append_nil]
  word n := by
    rw [ofWord_eq]
    exact isNumeral_ofNat n.toNat
  signedWord n := by
    rw [ofSignedWord_eq]
    exact isSignedNumeral_ofInt n.toInt
  wide n := by
    rw [ofWide_eq]
    exact isNumeral_ofNat n.toNat
  signedWide n := by
    rw [ofSignedWide_eq]
    exact isSignedNumeral_ofInt n.toInt
  unique n text text' h h' := h.unique.trans h'.unique.symm
  length_word n := by
    rw [ofWord_eq]
    exact length_ofNat_le (by decide) (n.toNat_lt.trans (by decide))
  length_signedWord n := by
    have hlow := n.le_toInt
    have hhigh := n.toInt_lt
    rw [ofSignedWord_eq]
    exact length_ofInt_le (k := 19) (by decide) (by omega)
  length_wide n := by
    rw [ofWide_eq]
    exact length_ofNat_le (by decide) (n.isLt.trans (by decide))
  length_signedWide n := by
    have hlow := n.le_toInt
    have hhigh := n.toInt_lt
    rw [ofSignedWide_eq]
    exact length_ofInt_le (k := 39) (by decide) (by omega)
  limb n h := by
    refine ⟨length_fill 19 _ _, isDigit_fill 19 _ (by simp), ?_⟩
    rw [lowerLimb, value_fill 19 _ _ h, List.length_nil, pow_zero, mul_one, value_nil, Nat.add_zero]
  read n := by
    rw [ofWide_eq, Numeral.wide?_eq _ (isDigit_ofNat n.toNat), value_ofNat, if_pos n.isLt,
      BitVec.ofNat_toNat, BitVec.setWidth_eq]

end JsonCodec.Decimal
