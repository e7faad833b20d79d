import Mathlib
import JsonCodec.Encode.Writer
import JsonCodec.Proofs.Binary64.Text
import JsonCodec.Proofs.Decode.Acceptance
import JsonCodec.Proofs.Encode.Output
import JsonCodec.Proofs.Encode.StringLiteral
import JsonCodec.Proofs.Value.Normal

set_option autoImplicit false

namespace JsonCodec
open Grammar

namespace Binary64

theorem eq_infinity {x : Binary64} (hf : x.isFinite = false) (hn : x.isNaN = false) :
    x = infinity x.isNegative := by
  simp only [isFinite, isNaN, decide_eq_false_iff_not, Nat.not_lt] at hf hn
  rw [infinity, Nat.le_antisymm hf hn, ofMagnitude_eq]

end Binary64

namespace Value

structure ShowsToken (o : EncodeOptions) (k : Token) (v : Value) : Prop where
  readable : ∀ d : DecodeOptions, d.dialect = o.dialect → d.bigInteger = none → k.Readable d
  value : k.value none = v.settledScalar o
  wellFormed : Utf8.WellFormed k.text ↔ v.TextsWellFormed

variable {o : EncodeOptions}

theorem showsToken_word {w : Word} {v : Value} (hv : w.value = v.settledScalar o)
    (ht : v.TextsWellFormed) (hd : w.isNonFinite = true → o.dialect.hasNonFinite = true) :
    ShowsToken o (.word w) v where
  readable d hdialect _ h := by rw [hdialect, hd h]
  value := hv
  wellFormed := iff_of_true (Utf8.wellFormed_ascii w.ascii) ht

theorem showsToken_numeral {n : Grammar.Numeral} {v : Value}
    (hv : Value.ofNumeral? none n.text = some (v.settledScalar o)) (ht : v.TextsWellFormed) :
    ShowsToken o (.numeral n) v where
  readable d _ hbig := by rw [Token.Readable, hbig, hv, Option.isSome_some]
  value := by rw [Token.value, hv, Option.getD_some]
  wellFormed := iff_of_true (Utf8.wellFormed_ascii n.ascii) ht

theorem showsToken_string (text : Bytes) :
    ShowsToken o (.string (text.map StringLiteral.pieceOf)) (.string text) where
  readable _ _ _ := StringLiteral.paired_map_pieceOf text
  value := by
    rw [Token.value, StringLiteral.spelled_map_pieceOf]
    rfl
  wellFormed := by
    rw [← StringLiteral.write_eq]
    exact StringLiteral.wellFormed_write_iff text

theorem isSome_integer {v : Value} {z : Int} (h : v.integer? = some z) :
    (ofInteger? z).isSome = true := by
  rw [isSome_ofInteger?]
  cases v with
  | int64 n =>
    obtain rfl := Option.some.inj h
    have hlow := n.le_toInt
    have hhigh := n.toInt_lt
    omega
  | uint64 n =>
    obtain rfl := Option.some.inj h
    have hhigh := n.toNat_lt
    omega
  | int128 n =>
    obtain rfl := Option.some.inj h
    have hlow := n.le_toInt
    have hhigh := n.toInt_lt
    omega
  | uint128 n =>
    obtain rfl := Option.some.inj h
    have hhigh := n.isLt
    omega
  | _ => cases h

theorem settledScalar_integer {v : Value} {z : Int} (h : v.integer? = some z) :
    ofInteger? z = some (v.settledScalar o) := by
  obtain ⟨w, hw⟩ := Option.isSome_iff_exists.1 (isSome_integer h)
  have hsettled : v.settledScalar o = (v.integer?.bind ofInteger?).getD v := by
    cases v with
    | float x => cases h
    | _ => rfl
  rw [hsettled, h, Option.bind_some, hw, Option.getD_some]

theorem writeScalar_integer (o : EncodeOptions) (out : Output) {v : Value} {z : Int}
    (h : v.integer? = some z) : writeScalar o out v = .ok (out.append (Decimal.ofInt z)) := by
  have hnat (m : Nat) : Decimal.ofInt m = Decimal.ofNat m := by
    rw [Decimal.ofInt, if_neg (by omega), Int.natAbs_natCast]
  cases v with
  | int64 n =>
    obtain rfl := Option.some.inj h
    rw [writeScalar, Decimal.ofSignedWord_eq]
  | uint64 n =>
    obtain rfl := Option.some.inj h
    rw [writeScalar, Decimal.ofWord_eq, hnat]
  | int128 n =>
    obtain rfl := Option.some.inj h
    rw [writeScalar, Decimal.ofSignedWide_eq]
  | uint128 n =>
    obtain rfl := Option.some.inj h
    rw [writeScalar, Decimal.ofWide_eq, hnat]
  | _ => cases h

theorem textsWellFormed_integer {v : Value} {z : Int} (h : v.integer? = some z) :
    v.TextsWellFormed := by
  cases v with
  | string text => cases h
  | array items => cases h
  | object members => cases h
  | _ => trivial

theorem exists_integer {v : Value} {z : Int} (h : v.integer? = some z) :
    ∃ k : Token, k.text = Decimal.ofInt z ∧ ShowsToken o k v := by
  obtain ⟨n, htext, hi, rfl⟩ := exists_ofInt z
  refine ⟨.numeral n, htext, showsToken_numeral ?_ (textsWellFormed_integer h)⟩
  rw [ofNumeral?_integral none hi, settledScalar_integer h]

theorem exists_float {x : Binary64} {text : Bytes} (h : x.encode o = .ok text) :
    ∃ k : Token, k.text = text ∧ ShowsToken o k (.float x) := by
  rw [Binary64.encode] at h
  cases hf : x.isFinite with
  | true =>
    rw [hf, if_pos rfl] at h
    obtain ⟨n, htext, hn⟩ := Binary64.exists_numeral hf
    refine ⟨.numeral n, htext.trans (Except.ok.inj h), showsToken_numeral ?_ trivial⟩
    rw [hn, settledScalar, settledFloat, hf, if_pos rfl]
  | false =>
    rw [hf, if_neg Bool.false_ne_true] at h
    have hsettled : (Value.float x).settledScalar o =
        if o.nonFiniteAsNull then .null else if x.isNaN then .float .nan else .float x := by
      rw [settledScalar, settledFloat, hf, if_neg Bool.false_ne_true]
    split_ifs at h with hnull hdialect hnan hneg
    · refine ⟨.word .null, Except.ok.inj h, showsToken_word ?_ trivial fun h => by cases h⟩
      rw [hsettled, if_pos hnull]
      rfl
    · refine ⟨.word .nan, Except.ok.inj h, showsToken_word ?_ trivial fun _ => hdialect⟩
      rw [hsettled, if_neg hnull, if_pos hnan]
      rfl
    · refine ⟨.word .negativeInfinity, Except.ok.inj h, showsToken_word ?_ trivial fun _ => hdialect⟩
      have hx := Binary64.eq_infinity hf (Bool.eq_false_iff.2 hnan)
      rw [hneg] at hx
      rw [hsettled, if_neg hnull, if_neg hnan, hx]
      rfl
    · refine ⟨.word .infinity, Except.ok.inj h, showsToken_word ?_ trivial fun _ => hdialect⟩
      have hx := Binary64.eq_infinity hf (Bool.eq_false_iff.2 hnan)
      rw [Bool.eq_false_iff.2 hneg] at hx
      rw [hsettled, if_neg hnull, if_neg hnan, hx]
      rfl

theorem exists_token {v : Value} (hs : v.isScalar = true) {out out' : Output}
    (h : writeScalar o out v = .ok out') :
    ∃ k : Token, out'.take = out.take ++ k.text ∧ ShowsToken o k v := by
  cases hz : v.integer? with
  | some z =>
    rw [writeScalar_integer o out hz] at h
    obtain ⟨k, htext, hk⟩ := @exists_integer o v z hz
    exact ⟨k, by rw [← Except.ok.inj h, Output.take_append, htext], hk⟩
  | none =>
    cases v with
    | null =>
      refine ⟨.word .null, ?_, showsToken_word rfl trivial fun h => by cases h⟩
      rw [← Except.ok.inj h, Output.take_append]
      rfl
    | bool b =>
      cases b with
      | true =>
        refine ⟨.word .true, ?_, showsToken_word rfl trivial fun h => by cases h⟩
        rw [← Except.ok.inj h, Output.take_append]
        rfl
      | false =>
        refine ⟨.word .false, ?_, showsToken_word rfl trivial fun h => by cases h⟩
        rw [← Except.ok.inj h, Output.take_append]
        rfl
    | float x =>
      rw [writeScalar] at h
      cases hx : x.encode o with
      | error e => simp [hx] at h
      | ok text =>
        rw [hx] at h
        obtain ⟨k, rfl, hk⟩ := exists_float hx
        exact ⟨k, by rw [← Except.ok.inj h, Output.take_append], hk⟩
    | string text =>
      refine ⟨_, ?_, showsToken_string text⟩
      rw [← Except.ok.inj h, Output.take_append, StringLiteral.write_eq]
    | array items => cases hs
    | object members => cases hs
    | _ => cases hz

end Value
end JsonCodec
