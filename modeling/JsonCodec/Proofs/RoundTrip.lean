import Mathlib
import JsonCodec.Proofs.Decode.Document
import JsonCodec.Proofs.Encode.Layout

set_option autoImplicit false

/-!
# Reading what was written

The text of a value is read as the value in its normal form, which has the same text. Keys have to
be distinct, as they are in every value that was built (`Value.Built.keysDistinct`).
-/
namespace JsonCodec
open Grammar

namespace Value

variable {o : EncodeOptions}

theorem encode_nan {x : Binary64} (hf : x.isFinite = false) (hn : x.isNaN = true) :
    Binary64.nan.encode o = x.encode o := by
  have hf' : Binary64.nan.isFinite = false := by decide
  have hn' : Binary64.nan.isNaN = true := by decide
  simp only [Binary64.encode, hf, hn, hf', hn', Bool.false_eq_true, ↓reduceIte]

theorem writeScalar_settledScalar (out : Output) (v : Value) :
    writeScalar o out (v.settledScalar o) = writeScalar o out v := by
  cases hz : v.integer? with
  | some z =>
    have hw := integer_ofInteger? (@settledScalar_integer o v z hz)
    rw [writeScalar_integer o out hz, writeScalar_integer o out hw]
  | none =>
    cases v with
    | float x =>
      rw [settledScalar, settledFloat]
      split_ifs with hf hnull hn
      · rfl
      · simp only [writeScalar, Binary64.encode, hf, hnull]
        rfl
      · rw [writeScalar, writeScalar, encode_nan (Bool.eq_false_iff.2 hf) hn]
      · rfl
    | int64 n => cases hz
    | uint64 n => cases hz
    | int128 n => cases hz
    | uint128 n => cases hz
    | _ => rfl

theorem writtenAlike_settled (v : Value) : WrittenAlike o o (v.settled o) v :=
  writtenAlike_of_scalars rfl rfl keepsContainers_settled fun w _ hs level out => by
    rw [settled_scalar hs, write_scalar (isScalar_settledScalar hs), write_scalar hs,
      writeScalar_settledScalar]

theorem encode_of_copy {v w : Value} (h : w.copy = v.normal o) : w.encode o = v.encode o := by
  calc w.encode o = w.copy.encode o := ((writtenAlike_copy w).encode rfl).symm
    _ = ((v.ordered o).settled o).encode o := congrArg (encode o) h
    _ = (v.ordered o).encode o := (writtenAlike_settled _).encode rfl
    _ = v.encode o := (writtenAlike_ordered v).encode rfl

theorem exists_tree {v : Value} {text : Bytes} (h : v.encode o = .ok text) :
    ∃ t : Tree, text = t.text ++ (lineEnd o).text ∧
      v.encode { o with newline := false } = .ok t.text ∧
      Shows o t (if o.sortKeys then v.sorted else v) := by
  obtain ⟨out, hwrite, -⟩ := bind_eq_ok.1 h
  obtain ⟨t, htext, hshows⟩ := writesTree _ _ _ _ hwrite
  rw [Output.take_empty, List.nil_append] at htext
  refine ⟨t, ?_, ?_, hshows⟩
  · rw [← htext]
    exact Except.ok.inj (h.symm.trans (encode_of_write hwrite))
  · have hbare := encode_of_write ((writtenAlike_newline false _ 0 Output.empty).trans hwrite)
    rwa [htext, lineEnd, if_neg Bool.false_ne_true, text_none, List.append_nil] at hbare

/-- What a tree shows of a value if members were sorted for it. -/
theorem Shows.unsorted {t : Tree} {v : Value}
    (h : Shows o t (if o.sortKeys then v.sorted else v)) :
    t.depth = v.depth ∧ (Utf8.WellFormed t.text ↔ v.TextsWellFormed) ∧
      (v.KeysDistinct → (t.value (Token.value none)).copy = v.normal o) := by
  rw [normal]
  split_ifs at h ⊢
  · exact ⟨h.depth.trans (depth_sorted v), h.wellFormed.trans (textsWellFormed_sorted v),
      fun hv => h.value hv.sorted⟩
  · exact ⟨h.depth, h.wellFormed, h.value⟩

end Value

/-- What was written is read as the value in its normal form, and written again as the same
text. -/
theorem whole_encode (e : EncodeOptions) (d : DecodeOptions) (hdialect : d.dialect = e.dialect)
    (hbig : d.bigInteger = none) {v : Value} (hkeys : v.KeysDistinct)
    (hdepth : v.depth ≤ d.depthLimit) (htexts : d.validateUtf8 = true → v.TextsWellFormed)
    {text : Bytes} (h : v.encode e = .ok text) (cache : KeyCache) :
    ∃ p keys, Decode.whole d (.bytes text) cache = (.ok p, keys) ∧
      p.value.copy = v.normal e ∧ p.value.encode e = .ok text := by
  obtain ⟨t, htext, -, hshows⟩ := Value.exists_tree h
  obtain ⟨hdepth', htexts', hvalue⟩ := hshows.unsorted
  have hc : d.Checks text := fun hv => by
    rw [htext]
    exact (htexts'.2 (htexts hv)).append (Value.wellFormed_blanks _)
  obtain ⟨p, keys, hrun, hp⟩ := @Decode.whole_tree d text t hc Blanks.none (Value.lineEnd e)
    (by rw [htext, Value.text_none, List.nil_append]) (hdepth'.trans_le hdepth)
    (hshows.readable d hdialect hbig) cache
  have hnormal : p.value.copy = v.normal e := by
    rw [hp, hbig, hvalue hkeys]
  exact ⟨p, keys, hrun, hnormal, (Value.encode_of_copy hnormal).trans h⟩

/-- A value of several kinds, with an integer that takes a narrower width and a negative zero. -/
def mixedValue : Value :=
  .object ⟨[(Bytes.ascii "b", .array [.uint64 1, .float (.zero true), .null]),
    (Bytes.ascii "a", .string [Byte.newline])], none⟩

def mixedText : Bytes :=
  Bytes.ascii "\x7b\n  \"b\": [\n    1,\n    -0.0,\n    null\n  ],\n  \"a\": \"\\n\"\n\x7d"

theorem keysDistinct_mixedValue : mixedValue.KeysDistinct := by
  have hnodup : [Bytes.ascii "b", Bytes.ascii "a"].Nodup := by decide +kernel
  simpa [mixedValue, Value.KeysDistinct, Value.All, Value.AllItems, Value.AllMembers, Object.keys]
    using hnodup

theorem textsWellFormed_mixedValue : mixedValue.TextsWellFormed := by
  have hkeys : ∀ key ∈ [Bytes.ascii "b", Bytes.ascii "a"], ∀ b ∈ key, b < 0x80 := by
    decide +kernel
  have hline : Utf8.WellFormed [Byte.newline] := Utf8.wellFormed_ascii (by decide +kernel)
  refine (Value.all_object _ _).2 ⟨fun key hkey => Utf8.wellFormed_ascii (hkeys key hkey), ?_⟩
  simp [Value.All, Value.AllItems, hline]

theorem encode_mixedValue : mixedValue.encode { indent := true } = .ok mixedText := by
  decide +kernel

theorem whole_encode_mixedValue :
    mixedValue.KeysDistinct ∧ mixedValue.depth ≤ ({} : DecodeOptions).depthLimit ∧
      mixedValue.TextsWellFormed ∧ mixedValue.encode { indent := true } = .ok mixedText ∧
      ∃ p keys, Decode.whole {} (.bytes mixedText) KeyCache.empty = (.ok p, keys) ∧
        p.value.copy = mixedValue.normal { indent := true } ∧
        p.value.encode { indent := true } = .ok mixedText :=
  have hdepth : mixedValue.depth ≤ ({} : DecodeOptions).depthLimit := by decide +kernel
  ⟨keysDistinct_mixedValue, hdepth, textsWellFormed_mixedValue, encode_mixedValue,
    whole_encode { indent := true } {} rfl rfl keysDistinct_mixedValue hdepth
      (fun _ => textsWellFormed_mixedValue) encode_mixedValue KeyCache.empty⟩

end JsonCodec
