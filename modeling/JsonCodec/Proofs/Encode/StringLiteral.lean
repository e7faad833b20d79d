import Mathlib
import JsonCodec.Encode.StringLiteral
import JsonCodec.Proofs.Grammar.Characters

set_option autoImplicit false

namespace JsonCodec.StringLiteral
open Grammar

def letterOf (b : UInt8) : UInt8 :=
  if b = 0x08 then 0x62
  else if b = Byte.tab then 0x74
  else if b = Byte.newline then 0x6E
  else if b = 0x0C then 0x66
  else if b = Byte.carriageReturn then 0x72
  else b

theorem isHex_ofHexDigit {n : Nat} (h : n < 16) :
    (Byte.hexValue? (Byte.ofHexDigit n)).isSome = true := by
  interval_cases n <;> decide

def unitOf (b : UInt8) : HexGroup where
  a := Byte.zero
  b := Byte.zero
  c := Byte.ofHexDigit (b.toNat / 16)
  d := Byte.ofHexDigit (b.toNat % 16)
  isHex := by
    have hhigh := isHex_ofHexDigit (Nat.div_lt_of_lt_mul b.toNat_lt : b.toNat / 16 < 16)
    have hlow := isHex_ofHexDigit (Nat.mod_lt b.toNat (by decide) : b.toNat % 16 < 16)
    intro x hx
    simp only [List.mem_cons, List.not_mem_nil, or_false] at hx
    rcases hx with rfl | rfl | rfl | rfl
    · rfl
    · rfl
    · exact hhigh
    · exact hlow

def pieceOf (b : UInt8) : Piece :=
  if h : isPlain b = true then .plain b h
  else if h : escaped? (letterOf b) = some b then .short (letterOf b) b h
  else .unit (unitOf b)

theorem text_pieceOf (b : UInt8) : (pieceOf b).text = spell b := by
  revert b
  decide +kernel

theorem unitOf_spec {b : UInt8} (hp : ¬ isPlain b = true) (he : ¬ escaped? (letterOf b) = some b) :
    (unitOf b).value = b.toNat ∧ b < 0x20 := by
  revert b
  decide +kernel

theorem surrogates_of_lt {n : Nat} (h : n < 0x80) :
    isHighSurrogate n = false ∧ isLowSurrogate n = false := by
  simp only [isHighSurrogate, isLowSurrogate, Bool.and_eq_false_iff, decide_eq_false_iff_not]
  omega

theorem paired_pieceOf (b : UInt8) {rest : List Piece} (h : Piece.Paired false rest) :
    Piece.Paired false (pieceOf b :: rest) := by
  unfold pieceOf
  split_ifs with hp he
  · exact h
  · exact h
  · obtain ⟨hv, hlt⟩ := unitOf_spec hp he
    have hlt' : b < 0x80 := UInt8.lt_trans hlt (by decide)
    have hs := surrogates_of_lt (UInt8.lt_iff_toNat_lt.1 hlt')
    rw [← hv] at hs
    rw [Piece.Paired, hs.1]
    exact ⟨hs.2, h⟩

theorem spelled_pieceOf (b : UInt8) (rest : List Piece) :
    Piece.spelled none (pieceOf b :: rest) = b :: Piece.spelled none rest := by
  unfold pieceOf
  split_ifs with hp he
  · rfl
  · rfl
  · obtain ⟨hv, hlt⟩ := unitOf_spec hp he
    have hlt' : b < 0x80 := UInt8.lt_trans hlt (by decide)
    have hs := surrogates_of_lt (UInt8.lt_iff_toNat_lt.1 hlt')
    rw [← hv] at hs
    rw [Piece.spelled, hs.1, if_neg Bool.false_ne_true, hv, Utf8.encode_ascii hlt']
    rfl

theorem join_map_pieceOf (text : Bytes) : Piece.join (text.map pieceOf) = text.flatMap spell := by
  simp only [Piece.join, List.flatMap_map, text_pieceOf]

theorem paired_map_pieceOf (text : Bytes) : Piece.Paired false (text.map pieceOf) := by
  induction text with
  | nil => rfl
  | cons b text ih => exact paired_pieceOf b ih

theorem spelled_map_pieceOf (text : Bytes) : Piece.spelled none (text.map pieceOf) = text := by
  induction text with
  | nil => rfl
  | cons b text ih => rw [List.map_cons, spelled_pieceOf, ih]

theorem write_eq (text : Bytes) : write text = (Token.string (text.map pieceOf)).text := by
  rw [write, Token.text, join_map_pieceOf]

theorem spell_ascii {b : UInt8} (h : b < 0x80) : ∀ c ∈ spell b, c < 0x80 := by
  have hall : (spell b).all (· < 0x80) = true := by
    revert b
    decide +kernel
  exact fun c hc => of_decide_eq_true (List.all_eq_true.1 hall c hc)

theorem spell_of_le {b : UInt8} (h : 0x80 ≤ b) : spell b = [b] := by
  revert b
  decide +kernel

theorem wellFormed_spell {text : Bytes} (h : Utf8.WellFormed text) :
    Utf8.WellFormed (text.flatMap spell) := by
  obtain ⟨cps, hcps, rfl⟩ := h
  induction cps with
  | nil => exact Utf8.wellFormed_nil
  | cons cp cps ih =>
    rw [List.flatMap_cons, List.flatMap_append]
    refine Utf8.WellFormed.append ?_ (ih fun c hc => hcps c (List.mem_cons_of_mem _ hc))
    have hcp := Utf8.wellFormed_encode (hcps cp List.mem_cons_self)
    rcases Nat.lt_or_ge cp 0x80 with hlt | hge
    · apply Utf8.wellFormed_ascii
      intro c hc
      rw [Utf8.encode, if_pos hlt] at hc
      refine spell_ascii (b := cp.toUInt8) ?_ c (by simpa using hc)
      rw [UInt8.lt_iff_toNat_lt]
      simp
      omega
    · have hspell : (Utf8.encode cp).flatMap spell = Utf8.encode cp := by
        have hmap : ∀ b ∈ Utf8.encode cp, spell b = [b] := fun b hb =>
          spell_of_le (Utf8.le_of_mem_encode hge hb)
        rw [List.flatMap_congr hmap, List.flatMap_singleton']
      rw [hspell]
      exact hcp

theorem wellFormed_write_iff (text : Bytes) :
    Utf8.WellFormed (write text) ↔ Utf8.WellFormed text := by
  constructor
  · intro h
    rw [write_eq] at h
    have hspelled := Piece.wellFormed_spelled (paired_map_pieceOf text) (Token.wellFormed_content h)
    rwa [spelled_map_pieceOf] at hspelled
  · intro h
    have hquote : Utf8.WellFormed [Byte.quote] := Utf8.wellFormed_ascii (by simp; decide)
    exact hquote.append ((wellFormed_spell h).append hquote)

end JsonCodec.StringLiteral
