import Mathlib
import JsonCodec.Proofs.Decode.Document

set_option autoImplicit false

namespace JsonCodec
open Grammar

namespace Grammar

/-- A text is a tree between blanks, and keeps to the limits that the options set. -/
structure Derives (o : DecodeOptions) (text : Bytes) (t : Tree) : Prop where
  wellFormed : o.validateUtf8 = true → Utf8.WellFormed text
  shape : ∃ before after : Blanks, text = before.text ++ t.text ++ after.text
  inDialect : ∀ k ∈ t.tokens, k.InDialect o.dialect
  surrogatesPaired : ∀ k ∈ t.tokens, k.SurrogatesPaired
  depth : t.depth ≤ o.depthLimit
  inRange : ∀ k ∈ t.tokens, k.InRange

theorem Token.Readable.surrogatesPaired {o : DecodeOptions} {k : Token} (h : k.Readable o) :
    k.SurrogatesPaired := by
  cases k with
  | word w => trivial
  | numeral n => trivial
  | string ps => exact h

theorem ascii_of_mark {b : UInt8} (h : Byte.isExponentMark b = true) : b < 0x80 := by
  rcases isExponentMark_cases h with rfl | rfl <;> decide

theorem ascii_of_sign {b : UInt8} (h : Byte.isSign b = true) : b < 0x80 := by
  rcases isSign_cases h with rfl | rfl <;> decide

theorem Word.ascii (w : Word) : ∀ b ∈ w.text, b < 0x80 := by
  cases w <;> decide +kernel

theorem Numeral.ascii (n : Numeral) : ∀ b ∈ n.text, b < 0x80 := by
  intro b hb
  rcases n.mem_cases hb with hb | hb | hb | rfl
  · exact isDigit_ascii hb
  · exact ascii_of_sign hb
  · exact ascii_of_mark hb
  · decide

theorem Token.wellFormed (k : Token) {a b : Bytes} (h : Utf8.WellFormed (a ++ k.text ++ b)) :
    Utf8.WellFormed k.text := by
  have hquote : Utf8.WellFormed [Byte.quote] :=
    Utf8.wellFormed_ascii (by simpa using (by decide : Byte.quote < 0x80))
  cases k with
  | word w => exact Utf8.wellFormed_ascii w.ascii
  | numeral n => exact Utf8.wellFormed_ascii n.ascii
  | string ps =>
    have htext : a ++ (Token.string ps).text ++ b =
        a ++ Byte.quote :: (Piece.join ps ++ Byte.quote :: b) := by simp [Token.text]
    rw [htext] at h
    have hinner := (h.split (by decide)).2
    exact hquote.append (hinner.split (by decide)).1

mutual

theorem Tree.exists_around (t : Tree) {k : Token} (hk : k ∈ t.tokens) :
    ∃ a b, t.text = a ++ k.text ++ b := by
  match t with
  | .token k' =>
    obtain rfl : k = k' := by simpa [Tree.tokens] using hk
    exact ⟨[], [], by simp [Tree.text]⟩
  | .empty c blanks => simp [Tree.tokens] at hk
  | .array is =>
    obtain ⟨a, b, h⟩ := is.exists_around (by simpa [Tree.tokens] using hk)
    exact ⟨Byte.openBracket :: a, b ++ [Byte.closeBracket], by simp [Tree.text, h]⟩
  | .object ms =>
    obtain ⟨a, b, h⟩ := ms.exists_around (by simpa [Tree.tokens] using hk)
    exact ⟨Byte.openBrace :: a, b ++ [Byte.closeBrace], by simp [Tree.text, h]⟩

theorem Items.exists_around (is : Items) {k : Token} (hk : k ∈ is.tokens) :
    ∃ a b, is.text = a ++ k.text ++ b := by
  match is with
  | .last before item after =>
    obtain ⟨a, b, h⟩ := item.exists_around (by simpa [Items.tokens] using hk)
    exact ⟨before.text ++ a, b ++ after.text, by simp [Items.text, h]⟩
  | .more before item after rest =>
    rw [Items.tokens] at hk
    rcases List.mem_append.1 hk with hk | hk
    · obtain ⟨a, b, h⟩ := item.exists_around hk
      exact ⟨before.text ++ a, b ++ after.text ++ Byte.comma :: rest.text, by simp [Items.text, h]⟩
    · obtain ⟨a, b, h⟩ := rest.exists_around hk
      exact ⟨before.text ++ item.text ++ after.text ++ Byte.comma :: a, b, by simp [Items.text, h]⟩

theorem Members.exists_around (ms : Members) {k : Token} (hk : k ∈ ms.tokens) :
    ∃ a b, ms.text = a ++ k.text ++ b := by
  match ms with
  | .last name before value after =>
    rw [Members.tokens] at hk
    rcases List.mem_cons.1 hk with rfl | hk
    · exact ⟨name.before.text, name.between.text ++ [Byte.colon] ++ before.text ++ value.text ++
        after.text, by simp [Members.text, Name.text]⟩
    · obtain ⟨a, b, h⟩ := value.exists_around hk
      exact ⟨name.text ++ before.text ++ a, b ++ after.text, by simp [Members.text, h]⟩
  | .more name before value after rest =>
    rw [Members.tokens] at hk
    rcases List.mem_cons.1 hk with rfl | hk
    · exact ⟨name.before.text, name.between.text ++ [Byte.colon] ++ before.text ++ value.text ++
        after.text ++ Byte.comma :: rest.text, by simp [Members.text, Name.text]⟩
    · rcases List.mem_append.1 hk with hk | hk
      · obtain ⟨a, b, h⟩ := value.exists_around hk
        exact ⟨name.text ++ before.text ++ a, b ++ after.text ++ Byte.comma :: rest.text,
          by simp [Members.text, h]⟩
      · obtain ⟨a, b, h⟩ := rest.exists_around hk
        exact ⟨name.text ++ before.text ++ value.text ++ after.text ++ Byte.comma :: a, b,
          by simp [Members.text, h]⟩

end

end Grammar

namespace Decode

end Decode
end JsonCodec
