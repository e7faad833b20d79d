import Mathlib
import JsonCodec.Proofs.Grammar.Token
import JsonCodec.Proofs.Utf8

set_option autoImplicit false

namespace JsonCodec.Grammar
open StringLiteral

theorem hexValue?_spec {x : UInt8} {n : Nat} (h : Byte.hexValue? x = some n) :
    x < 0x80 ∧ n < 16 := by
  have hall : ∀ x, (Byte.hexValue? x).all (fun n => x < 0x80 && n < 16) = true := by
    decide +kernel
  simpa [h] using hall x

theorem digitValue_lt (x : UInt8) : HexGroup.digitValue x < 16 := by
  unfold HexGroup.digitValue
  cases hx : Byte.hexValue? x with
  | none => decide
  | some n => exact (hexValue?_spec hx).2

theorem HexGroup.ascii (g : HexGroup) : ∀ x ∈ g.text, x < 0x80 := by
  intro x hx
  obtain ⟨n, hn⟩ := Option.isSome_iff_exists.1 (g.isHex x hx)
  exact (hexValue?_spec hn).1

theorem HexGroup.value_lt (g : HexGroup) : g.value < 0x10000 := by
  have ha := digitValue_lt g.a
  have hb := digitValue_lt g.b
  have hc := digitValue_lt g.c
  have hd := digitValue_lt g.d
  unfold value
  omega

theorem short_ascii {letter b : UInt8} (h : escaped? letter = some b) :
    letter < 0x80 ∧ b < 0x80 := by
  unfold escaped? at h
  split at h <;> cases h <;> decide

theorem isScalar_of_lt {n : Nat} (h : n < 0x10000) (hhigh : isHighSurrogate n = false)
    (hlow : isLowSurrogate n = false) : Utf8.IsScalar n := by
  simp only [isHighSurrogate, isLowSurrogate, Bool.and_eq_false_iff,
    decide_eq_false_iff_not] at hhigh hlow
  simp only [Utf8.IsScalar, Utf8.isSurrogate, Bool.and_eq_false_iff, decide_eq_false_iff_not]
  omega

theorem isScalar_of_le {n : Nat} (h : 0x10000 ≤ n) (hmax : n ≤ 0x10FFFF) : Utf8.IsScalar n := by
  simp only [Utf8.IsScalar, Utf8.isSurrogate, Bool.and_eq_false_iff, decide_eq_false_iff_not]
  omega

theorem isScalar_joinSurrogates {high low : Nat} (hhigh : isHighSurrogate high = true)
    (hlow : isLowSurrogate low = true) : Utf8.IsScalar (joinSurrogates high low) := by
  simp only [isHighSurrogate, isLowSurrogate, Bool.and_eq_true, decide_eq_true_eq] at hhigh hlow
  have hjoin : joinSurrogates high low =
    0x10000 + (high - 0xD800) * 1024 + (low - 0xDC00) := rfl
  exact isScalar_of_le (by omega) (by omega)

namespace Piece

theorem unit_ascii (g : HexGroup) : ∀ x ∈ (unit g).text, x < 0x80 := by
  intro x hx
  rcases List.mem_cons.1 hx with rfl | hx
  · decide
  · rcases List.mem_cons.1 hx with rfl | hx
    · decide
    · exact g.ascii x hx

end Piece

theorem Token.wellFormed_content {ps : List Piece} (h : Utf8.WellFormed (Token.string ps).text) :
    Utf8.WellFormed (Piece.join ps) := by
  have hquote : Byte.quote < 0x80 := by decide
  have htail := (@Utf8.wellFormed_append_cons_iff [] _ _ hquote).1 h
  exact ((Utf8.wellFormed_append_cons_iff hquote).1 htail.2).1

end JsonCodec.Grammar
