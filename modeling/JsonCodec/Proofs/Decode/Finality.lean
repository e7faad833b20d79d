import Mathlib
import JsonCodec.Proofs.Decode.Blindness
import JsonCodec.Proofs.Decode.Growth.Value
import JsonCodec.Proofs.Decode.Prefix
import JsonCodec.Proofs.Decode.Series

set_option autoImplicit false

namespace JsonCodec

theorem locate_append {text : Bytes} {k : Nat} (h : k ≤ text.length) (more : Bytes) :
    locate (text ++ more) k = locate text k := by
  rw [locate, locate, List.take_append_of_le_length h]

/-- A fault that is found with more text behind it is found at the same place. -/
theorem DecodeError.ofFault_append (text rest more : Bytes) (fault : Fault) :
    ofFault (text ++ more) (rest ++ more) fault = ofFault text rest fault := by
  rw [ofFault, ofFault, List.length_append, List.length_append, Nat.add_sub_add_right,
    locate_append (Nat.sub_le _ _)]

theorem DecodeError.offset_ofFault_nil (text : Bytes) (fault : Fault) :
    (ofFault text [] fault).location.offset = text.length := by
  rw [ofFault, offset_locate, List.length_nil, Nat.sub_zero, Nat.min_self]

namespace Reader

variable {α : Type} {r : α → α → Prop} {x : Reader α} {text : Bytes} {cache : KeyCache}

theorem ok_append (hx : Settles x) (hr : Agree r x x) {a : α} {rest : Bytes} {keys : KeyCache}
    (h : x ⟨text, cache⟩ = .ok a ⟨rest, keys⟩) (hrest : rest ≠ []) (more : Bytes)
    (cache' : KeyCache) :
    ∃ a' keys', x ⟨text ++ more, cache'⟩ = .ok a' ⟨rest ++ more, keys'⟩ ∧ r a a' := by
  have hgrow := (hx ⟨text, cache⟩).grow more
  rw [h] at hgrow
  obtain hend | hgrow := hgrow
  · exact absurd (List.length_eq_zero_iff.1 hend) hrest
  have halike := hr (text ++ more) cache cache'
  rw [show x ⟨text ++ more, cache⟩ = .ok a ⟨rest ++ more, keys⟩ from hgrow] at halike
  exact halike.of_ok

theorem error_append (hx : Settles x) (hr : Agree r x x) {fault : Fault} {s : Cursor}
    (h : x ⟨text, cache⟩ = .error fault s) (hf : fault.IsFinal) (more : Bytes) (cache' : KeyCache) :
    ∃ keys', x ⟨text ++ more, cache'⟩ = .error fault ⟨s.rest ++ more, keys'⟩ := by
  have hgrow := (hx ⟨text, cache⟩).grow more
  rw [h] at hgrow
  obtain hend | hgrow := hgrow
  · exact absurd hf hend
  have halike := hr (text ++ more) cache cache'
  rw [show x ⟨text ++ more, cache⟩ = .error fault ⟨s.rest ++ more, s.keys⟩ from hgrow] at halike
  exact halike.of_error

theorem offset_unterminated (hx : Settles x) {fault : Fault} {s : Cursor}
    (h : x ⟨text, cache⟩ = .error fault s) (hc : fault.code = .unterminatedValue) :
    (DecodeError.ofFault text s.rest fault).location.offset = text.length := by
  have hrest : s.rest = [] := List.length_eq_zero_iff.1 ((hx _).unterminated fault s h hc)
  rw [hrest, DecodeError.offset_ofFault_nil]

end Reader

namespace Decode

variable {o : DecodeOptions} {text : Bytes} {cache keys : KeyCache} {e : DecodeError}

/-- Where decoding fails, the text is not UTF-8, or the reader has found a fault. -/
theorem first_eq_error (h : first o (.bytes text) cache = (.error e, keys)) :
    ¬ o.Checks text ∧ e = DecodeError.ofFault text (Utf8.illFormed text) .invalidUtf8 ∨
      ∃ fault s, Reader.leadingValue o ⟨text, cache⟩ = .error fault s ∧
        e = DecodeError.ofFault text s.rest fault := by
  by_cases hc : o.Checks text
  · simp only [first, Source.read_of_checks hc, run] at h
    cases hrun : Reader.leadingValue o ⟨text, cache⟩ with
    | error fault s =>
      simp only [hrun, Except.map, Prod.mk.injEq, Except.error.injEq] at h
      exact .inr ⟨fault, s, rfl, h.1.symm⟩
    | ok p s => simp [hrun, Except.map] at h
  · rw [first, Source.read_of_not_checks hc] at h
    exact .inl ⟨hc, (Except.error.inj (Prod.mk.inj h).1).symm⟩

theorem whole_eq_error (h : whole o (.bytes text) cache = (.error e, keys)) :
    ¬ o.Checks text ∧ e = DecodeError.ofFault text (Utf8.illFormed text) .invalidUtf8 ∨
      ∃ fault s, Reader.document o ⟨text, cache⟩ = .error fault s ∧
        e = DecodeError.ofFault text s.rest fault := by
  by_cases hc : o.Checks text
  · simp only [whole, Source.read_of_checks hc, run] at h
    cases hs : shortLiteral? text with
    | some v => simp [hs] at h
    | none =>
      cases hrun : Reader.document o ⟨text, cache⟩ with
      | error fault s =>
        simp only [hs, hrun, Except.map, Prod.mk.injEq, Except.error.injEq] at h
        exact .inr ⟨fault, s, rfl, h.1.symm⟩
      | ok p s => simp [hs, hrun, Except.map] at h
  · rw [whole, Source.read_of_not_checks hc] at h
    exact .inl ⟨hc, (Except.error.inj (Prod.mk.inj h).1).symm⟩

theorem first_of_reader_error (hc : o.Checks text) {fault : Fault} {s : Cursor}
    (h : Reader.leadingValue o ⟨text, cache⟩ = .error fault s) :
    first o (.bytes text) cache = (.error (DecodeError.ofFault text s.rest fault), s.keys) := by
  simp only [first, Source.read_of_checks hc, run, h, Except.map]

/-- What more text behind a text cannot change, and where its errors are found. -/
structure Finality (o : DecodeOptions) (text more : Bytes) (cache cache' : KeyCache) : Prop where
  value : ∀ p n keys, o.Checks (text ++ more) → first o (.bytes text) cache = (.ok (p, n), keys) →
    n < text.length → ∃ p' keys', first o (.bytes (text ++ more)) cache' = (.ok (p', n), keys') ∧
      Reader.SameParsed p p'
  first_error : ∀ e keys, o.Checks (text ++ more) →
    first o (.bytes text) cache = (.error e, keys) → e.fault.IsFinal →
    ∃ keys', first o (.bytes (text ++ more)) cache' = (.error e, keys')
  whole_error : ∀ e keys, o.Checks (text ++ more) →
    whole o (.bytes text) cache = (.error e, keys) → e.fault.IsFinal →
    ∃ keys', whole o (.bytes (text ++ more)) cache' = (.error e, keys')
  first_unterminated : ∀ e keys, first o (.bytes text) cache = (.error e, keys) →
    e.code = .unterminatedValue → e.location.offset = text.length
  whole_unterminated : ∀ e keys, whole o (.bytes text) cache = (.error e, keys) →
    e.code = .unterminatedValue → e.location.offset = text.length
  first_offset : ∀ e keys, first o (.bytes text) cache = (.error e, keys) →
    e.location.offset ≤ text.length
  whole_offset : ∀ e keys, whole o (.bytes text) cache = (.error e, keys) →
    e.location.offset ≤ text.length
  series_offset : ∀ e, (series o (.bytes text) cache).error = some e →
    e.location.offset ≤ text.length

theorem not_isFinal_invalidUtf8 : ¬ Fault.invalidUtf8.IsFinal := by decide

theorem finality (o : DecodeOptions) (text more : Bytes) (cache cache' : KeyCache) :
    Finality o text more cache cache' where
  value p n keys hc h hn := by
    obtain ⟨-, rest, hrun, rfl⟩ := first_eq_ok_iff.1 h
    have hrest : rest ≠ [] := by
      rintro rfl
      simp at hn
    obtain ⟨p', keys', hrun', hp⟩ := Reader.ok_append (Reader.settles_leadingValue o)
      (Reader.agree_leadingValue o o.useKeyCache) hrun hrest more cache'
    refine ⟨p', keys', first_eq_ok_iff.2 ⟨hc, _, hrun', ?_⟩, hp⟩
    rw [List.length_append, List.length_append, Nat.add_sub_add_right]
  first_error e keys hc h hf := by
    obtain ⟨-, rfl⟩ | ⟨fault, s, hrun, rfl⟩ := first_eq_error h
    · exact absurd hf not_isFinal_invalidUtf8
    · obtain ⟨keys', hrun'⟩ := Reader.error_append (Reader.settles_leadingValue o)
        (Reader.agree_leadingValue o o.useKeyCache) hrun hf more cache'
      have herror := first_of_reader_error hc hrun'
      rw [DecodeError.ofFault_append] at herror
      exact ⟨keys', herror⟩
  whole_error e keys hc h hf := by
    obtain ⟨-, rfl⟩ | ⟨fault, s, hrun, rfl⟩ := whole_eq_error h
    · exact absurd hf not_isFinal_invalidUtf8
    · obtain ⟨keys', hrun'⟩ := Reader.error_append (Reader.settles_document o)
        (Reader.agree_document o o.useKeyCache) hrun hf more cache'
      have herror := whole_of_document_error hc hrun'
      rw [DecodeError.ofFault_append] at herror
      exact ⟨keys', herror⟩
  first_unterminated e keys h hu := by
    obtain ⟨-, rfl⟩ | ⟨fault, s, hrun, rfl⟩ := first_eq_error h
    · cases hu
    · exact Reader.offset_unterminated (Reader.settles_leadingValue o) hrun hu
  whole_unterminated e keys h hu := by
    obtain ⟨-, rfl⟩ | ⟨fault, s, hrun, rfl⟩ := whole_eq_error h
    · cases hu
    · exact Reader.offset_unterminated (Reader.settles_document o) hrun hu
  first_offset e keys h := offset_first h
  whole_offset e keys h := by
    obtain ⟨-, rfl⟩ | ⟨fault, s, -, rfl⟩ := whole_eq_error h
    · exact offset_ofFault _ _ _
    · exact offset_ofFault _ _ _
  series_offset e h := (iterates_series o text cache).offset h

end Decode
end JsonCodec
