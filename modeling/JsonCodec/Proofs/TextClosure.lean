import Mathlib
import JsonCodec.Proofs.Decode.Series
import JsonCodec.Proofs.Grammar.Characters
import JsonCodec.Proofs.RoundTrip
import JsonCodec.Proofs.Value.Built

set_option autoImplicit false

namespace JsonCodec
open Grammar

namespace Value

theorem textsWellFormed_floatValue? {text : Bytes} {v : Value}
    (h : Numeral.floatValue? text = some v) : v.TextsWellFormed := by
  rw [Numeral.floatValue?] at h
  split at h
  · obtain rfl := Option.some.inj h
    trivial
  · cases h

theorem textsWellFormed_ofNumeral? {n : Grammar.Numeral} {v : Value}
    (h : ofNumeral? none n.text = some v) : v.TextsWellFormed := by
  cases hi : n.isIntegral with
  | true =>
    rw [ofNumeral?_integral none hi] at h
    cases hz : ofInteger? n.integer with
    | some w =>
      rw [hz] at h
      obtain rfl := Option.some.inj h
      exact textsWellFormed_integer (integer_ofInteger? hz)
    | none =>
      rw [hz] at h
      exact textsWellFormed_floatValue? h
  | false =>
    rw [ofNumeral?_float none hi] at h
    exact textsWellFormed_floatValue? h

theorem textsWellFormed_token {k : Token} (hp : k.SurrogatesPaired)
    (h : Utf8.WellFormed k.text) : (k.value none).TextsWellFormed := by
  cases k with
  | word w => cases w <;> trivial
  | string pieces => exact Piece.wellFormed_spelled hp (Token.wellFormed_content h)
  | numeral n =>
    rw [Token.value]
    cases hv : ofNumeral? none n.text with
    | some v => exact textsWellFormed_ofNumeral? hv
    | none => trivial

theorem containerClosed_textsWellFormed :
    ContainerClosed Utf8.WellFormed TextsWellFormed where
  array items h := (textsWellFormed_array items).2 h
  object _ h := (textsWellFormed_object _ _).2 fun m hm => h m (Object.mem_ofList hm)

theorem textsWellFormed_tree {a b : Bytes} {t : Tree} (hp : ∀ k ∈ t.tokens, k.SurrogatesPaired)
    (h : Utf8.WellFormed (a ++ t.text ++ b)) : (t.value (Token.value none)).TextsWellFormed := by
  have htoken : ∀ k ∈ t.tokens, Utf8.WellFormed k.text := by
    intro k hk
    obtain ⟨c, d, htext⟩ := t.exists_around hk
    apply @Token.wellFormed k (a ++ c) (d ++ b)
    have hsplit : a ++ c ++ k.text ++ (d ++ b) = a ++ t.text ++ b := by simp [htext]
    rwa [hsplit]
  refine containerClosed_textsWellFormed.value t ?_ ?_
  · exact fun k hk => textsWellFormed_token (hp k hk) (htoken k hk)
  · exact fun pieces hk => Piece.wellFormed_spelled (hp _ hk) (Token.wellFormed_content (htoken _ hk))

theorem wellFormed_encode_iff {o : EncodeOptions} {v : Value} {text : Bytes}
    (h : v.encode o = .ok text) : Utf8.WellFormed text ↔ v.TextsWellFormed := by
  obtain ⟨t, htext, -, hshows⟩ := exists_tree h
  obtain ⟨-, htexts, -⟩ := hshows.unsorted
  rw [htext, Utf8.wellFormed_append_ascii (blanks_ascii _), htexts]

end Value

/-- What was read of a source could have been given as it is. -/
theorem Source.read_bytes {o : DecodeOptions} {source : Source} {text : Bytes}
    (h : source.read o = .ok text) : (Source.bytes text).read o = .ok text := by
  cases source with
  | bytes text' =>
    obtain ⟨rfl, -⟩ := Source.checks_of_read h
    exact h
  | absent size =>
    cases size with
    | zero =>
      obtain rfl := Except.ok.inj h
      exact read_of_checks fun _ => Utf8.wellFormed_nil
    | succ size => cases h

namespace Decode

variable {o : DecodeOptions} {source : Source} {text : Bytes} {cache keys : KeyCache}

theorem textsWellFormed_read (hutf8 : o.validateUtf8 = true) (hbig : o.bigInteger = none)
    (hc : o.Checks text) {a b : Bytes} {t : Tree} (ht : text = a ++ t.text ++ b)
    (hr : ∀ k ∈ t.tokens, k.Readable o) : (t.value (Token.value o.bigInteger)).TextsWellFormed := by
  have hpaired : ∀ k ∈ t.tokens, k.SurrogatesPaired := fun k hk => (hr k hk).surrogatesPaired
  rw [hbig]
  exact Value.textsWellFormed_tree hpaired (ht ▸ hc hutf8)

theorem textsWellFormed_whole (hutf8 : o.validateUtf8 = true) (hbig : o.bigInteger = none)
    {p : Parsed} (h : whole o (.bytes text) cache = (.ok p, keys)) : p.value.TextsWellFormed := by
  obtain ⟨hc, before, t, after, ht, -, hr, hv⟩ := whole_eq_ok h
  rw [hv]
  exact textsWellFormed_read hutf8 hbig hc ht hr

theorem textsWellFormed_first (hutf8 : o.validateUtf8 = true) (hbig : o.bigInteger = none)
    {p : Parsed} {n : Nat} (h : first o (.bytes text) cache = (.ok (p, n), keys)) :
    p.value.TextsWellFormed := by
  obtain ⟨hc, before, t, rest, ht, -, hr, -, -, hv⟩ := first_eq_ok h
  rw [hv]
  exact textsWellFormed_read hutf8 hbig hc ht hr

theorem Iterates.textsWellFormed (hutf8 : o.validateUtf8 = true) (hbig : o.bigInteger = none)
    {s : Series} (h : Iterates o text cache s) : ∀ v ∈ s.values, v.TextsWellFormed := by
  induction h with
  | blank text cache h => exact List.forall_mem_nil _
  | error text cache keys e hb h => exact List.forall_mem_nil _
  | step text cache keys p n s h rest ih =>
    exact List.forall_mem_cons.2 ⟨textsWellFormed_first hutf8 hbig h, ih⟩

end Decode

/-- Well-formed texts stay well formed, in both directions. -/
structure TextClosure (d : DecodeOptions) (e : EncodeOptions) : Prop where
  whole : d.validateUtf8 = true → d.bigInteger = none → ∀ source cache p keys,
    Decode.whole d source cache = (.ok p, keys) → p.value.TextsWellFormed
  first : d.validateUtf8 = true → d.bigInteger = none → ∀ source cache p n keys,
    Decode.first d source cache = (.ok (p, n), keys) → p.value.TextsWellFormed
  series : d.validateUtf8 = true → d.bigInteger = none → ∀ source cache,
    ∀ v ∈ (Decode.series d source cache).values, v.TextsWellFormed
  encode : ∀ (v : Value) (text : Bytes), v.encode e = .ok text →
    (Utf8.WellFormed text ↔ v.TextsWellFormed)

theorem textClosure (d : DecodeOptions) (e : EncodeOptions) : TextClosure d e where
  whole hutf8 hbig source cache p keys h := by
    cases hread : source.read d with
    | error fault => simp [Decode.whole, hread] at h
    | ok text =>
      apply Decode.textsWellFormed_whole hutf8 hbig
      rw [← h, Decode.whole, Decode.whole, hread, Source.read_bytes hread]
  first hutf8 hbig source cache p n keys h := by
    cases hread : source.read d with
    | error fault => simp [Decode.first, hread] at h
    | ok text =>
      apply Decode.textsWellFormed_first hutf8 hbig
      rw [← h, Decode.first, Decode.first, hread, Source.read_bytes hread]
  series hutf8 hbig source cache := by
    cases hread : source.read d with
    | error fault =>
      simp only [Decode.series, hread]
      exact List.forall_mem_nil _
    | ok text =>
      have hseries : Decode.series d source cache = Decode.series d (.bytes text) cache := by
        rw [Decode.series, Decode.series, hread, Source.read_bytes hread]
      rw [hseries]
      exact (Decode.iterates_series d text cache).textsWellFormed hutf8 hbig
  encode _ _ h := Value.wellFormed_encode_iff h

end JsonCodec
