import Mathlib
import JsonCodec.Value.Access
import JsonCodec.Value.Equality
import JsonCodec.Proofs.Value.Normal

set_option autoImplicit false

namespace JsonCodec

namespace SignedMagnitude

def toInt (a : SignedMagnitude) : Int :=
  if a.negative then -(a.magnitude.toNat : Int) else a.magnitude.toNat

theorem same_iff (a b : SignedMagnitude) : a.same b = true ↔ a.toInt = b.toInt := by
  simp only [same, Bool.and_eq_true, Bool.or_eq_true, beq_iff_eq, ← BitVec.toNat_inj,
    BitVec.ofNat_eq_ofNat, BitVec.toNat_ofNat, Nat.zero_mod]
  cases ha : a.negative <;> cases hb : b.negative <;> simp [toInt, ha, hb] <;> omega

/-- Negation modulo 2^128 and a cast to fewer bits lose nothing of what fits them. -/
theorem toInt_setWidth_neg {width : Nat} (h : width ≤ 128) (x : BitVec 128) :
    ((0 - x).setWidth width).toInt = (-(x.toNat : Int)).bmod (2 ^ width) := by
  have hdvd : 2 ^ width ∣ 2 ^ 128 := Nat.pow_dvd_pow 2 h
  calc ((0 - x).setWidth width).toInt
      = ((0 - x).toNat : Int).bmod (2 ^ width) := BitVec.toInt_setWidth _
    _ = (((0 - x).toNat : Int).bmod (2 ^ 128)).bmod (2 ^ width) := (Int.bmod_bmod_of_dvd hdvd).symm
    _ = ((-(x.toNat : Int)).bmod (2 ^ 128)).bmod (2 ^ width) := by
      rw [← BitVec.toInt_eq_toNat_bmod, BitVec.toInt_sub, BitVec.toInt_eq_toNat_bmod x,
        Int.sub_bmod_bmod]
      simp
    _ = (-(x.toNat : Int)).bmod (2 ^ width) := Int.bmod_bmod_of_dvd hdvd

theorem bmod_of_fits {width : Nat} (hw : 0 < width) {n : Int} (hlow : -2 ^ (width - 1) ≤ n)
    (hhigh : n < 2 ^ (width - 1)) : n.bmod (2 ^ width) = n := by
  obtain ⟨width, rfl⟩ := Nat.exists_eq_add_of_le' (show 1 ≤ width from hw)
  rw [Nat.add_sub_cancel] at hlow hhigh
  have hpow : ((2 ^ (width + 1) : Nat) : Int) = 2 * 2 ^ width := by
    push_cast
    ring
  exact Int.bmod_eq_of_le (by omega) (by omega)

theorem cast_one_shiftLeft (n : Nat) : ((1 <<< n : Nat) : Int) = 2 ^ n := by
  rw [Nat.one_shiftLeft]
  push_cast
  rfl

variable {a : SignedMagnitude} {width : Nat}

theorem toSigned?_of_fits (hw : 0 < width) (h : width ≤ 128) (hlow : -2 ^ (width - 1) ≤ a.toInt)
    (hhigh : a.toInt < 2 ^ (width - 1)) : ∃ n, a.toSigned? width = some n ∧ n.toInt = a.toInt := by
  have hfits := bmod_of_fits hw hlow hhigh
  have hlimit := cast_one_shiftLeft (width - 1)
  rw [toInt] at hlow hhigh hfits ⊢
  rw [toSigned?]
  cases hn : a.negative with
  | true =>
    simp only [hn, ↓reduceIte] at hlow hfits ⊢
    rw [if_pos (by omega)]
    exact ⟨_, rfl, (toInt_setWidth_neg h _).trans hfits⟩
  | false =>
    simp only [hn, Bool.false_eq_true, ↓reduceIte] at hhigh hfits ⊢
    rw [if_pos (by omega)]
    exact ⟨_, rfl, (BitVec.toInt_setWidth _).trans hfits⟩

theorem toSigned?_eq_none (h : a.toInt < -2 ^ (width - 1) ∨ 2 ^ (width - 1) ≤ a.toInt) :
    a.toSigned? width = none := by
  have hlimit := cast_one_shiftLeft (width - 1)
  have hpos : (0 : Int) < 2 ^ (width - 1) := by positivity
  rw [toInt] at h
  rw [toSigned?]
  cases hn : a.negative with
  | true =>
    simp only [hn, ↓reduceIte] at h ⊢
    exact if_neg (by omega)
  | false =>
    simp only [hn, Bool.false_eq_true, ↓reduceIte] at h ⊢
    exact if_neg (by omega)

theorem toUnsigned?_of_fits (hlow : 0 ≤ a.toInt) (hhigh : a.toInt < 2 ^ width) :
    ∃ n, a.toUnsigned? width = some n ∧ (n.toNat : Int) = a.toInt := by
  have hlimit := cast_one_shiftLeft width
  have hnat : (a.magnitude.toNat : Int) = a.toInt := by
    rw [toInt] at hlow ⊢
    split_ifs at hlow ⊢ <;> omega
  have hlt : a.magnitude.toNat < 2 ^ width := by
    exact_mod_cast hnat.trans_lt hhigh
  rw [toUnsigned?, if_neg]
  · refine ⟨_, rfl, ?_⟩
    rw [BitVec.toNat_setWidth, Nat.mod_eq_of_lt hlt, hnat]
  · simp only [Bool.or_eq_true, Bool.and_eq_true, bne_iff_ne, decide_eq_true_eq, not_or, not_and,
      not_not, ← BitVec.toNat_inj, BitVec.ofNat_eq_ofNat, BitVec.toNat_ofNat, Nat.zero_mod]
    refine ⟨fun hn => ?_, by omega⟩
    rw [toInt, if_pos hn] at hnat
    omega

theorem toUnsigned?_eq_none (h : a.toInt < 0 ∨ 2 ^ width ≤ a.toInt) :
    a.toUnsigned? width = none := by
  have hlimit := cast_one_shiftLeft width
  have hpos : (0 : Int) < 2 ^ width := by positivity
  rw [toInt] at h
  rw [toUnsigned?, if_pos]
  simp only [Bool.or_eq_true, Bool.and_eq_true, bne_iff_ne, decide_eq_true_eq,
    ← BitVec.toNat_inj, BitVec.ofNat_eq_ofNat, BitVec.toNat_ofNat, Nat.zero_mod, ne_eq]
  split_ifs at h with hn
  · exact .inl ⟨hn, by omega⟩
  · exact .inr (by omega)

end SignedMagnitude

namespace Value

theorem signedMagnitude?_eq_none {v : Value} (h : v.integer? = none) :
    v.signedMagnitude? = none := by
  cases v <;> first | rfl | cases h

/-- Negation modulo 2^128 gives the magnitude of a negative number, that of the minimum included. -/
theorem toNat_neg_of_msb {x : BitVec 128} (h : x.msb = true) : (0 - x).toNat = x.toInt.natAbs := by
  rw [BitVec.msb_eq_decide, decide_eq_true_eq] at h
  rw [BitVec.toInt_eq_toNat_cond, BitVec.toNat_sub]
  simp
  omega

theorem toNat_of_not_msb {x : BitVec 128} (h : x.msb = false) : x.toNat = x.toInt.natAbs := by
  rw [BitVec.toInt_eq_msb_cond, h]
  simp

theorem exists_signedMagnitude {v : Value} {n : Int} (h : v.integer? = some n) :
    ∃ a, v.signedMagnitude? = some a ∧ a.magnitude.toNat = n.natAbs ∧
      (a.negative = true ↔ n < 0) := by
  cases v with
  | int64 m =>
    obtain rfl := Option.some.inj h
    have hwide : (m.toBitVec.signExtend 128).toInt = m.toInt :=
      BitVec.toInt_signExtend_of_le (by decide)
    have hsign : m < 0 ↔ m.toInt < 0 := Int64.lt_iff_toInt_lt
    refine ⟨_, rfl, ?_, by simpa using hsign⟩
    rw [← hwide]
    by_cases hm : m < 0
    · rw [if_pos hm]
      exact toNat_neg_of_msb (by rwa [BitVec.msb_eq_toInt, hwide, decide_eq_true_eq, ← hsign])
    · rw [if_neg hm]
      exact toNat_of_not_msb (by rwa [BitVec.msb_eq_toInt, hwide, decide_eq_false_iff_not, ← hsign])
  | uint64 m =>
    obtain rfl := Option.some.inj h
    have hm := m.toNat_lt
    refine ⟨_, rfl, ?_, by simp⟩
    simp
    omega
  | int128 m =>
    obtain rfl := Option.some.inj h
    refine ⟨_, rfl, ?_, by simp [BitVec.msb_eq_toInt]⟩
    cases hm : m.msb with
    | true =>
      rw [if_pos rfl]
      exact toNat_neg_of_msb hm
    | false =>
      rw [if_neg Bool.false_ne_true]
      exact toNat_of_not_msb hm
  | uint128 m =>
    obtain rfl := Option.some.inj h
    exact ⟨_, rfl, by simp, by simp⟩
  | _ => cases h

/-- A sign and a magnitude are the number that a value holds. -/
theorem map_signedMagnitude? (v : Value) :
    v.signedMagnitude?.map SignedMagnitude.toInt = v.integer? := by
  cases h : v.integer? with
  | none => rw [signedMagnitude?_eq_none h, Option.map_none]
  | some n =>
    obtain ⟨a, ha, hmagnitude, hsign⟩ := exists_signedMagnitude h
    rw [ha, Option.map_some, Option.some.injEq, SignedMagnitude.toInt, hmagnitude]
    split_ifs with hn
    · rw [hsign] at hn
      omega
    · rw [hsign] at hn
      omega

/-- What is read of a value is the integer that it holds if that lies between two bounds, and a
mismatch otherwise. -/
structure ReadsInteger {α : Type} (v : Value) (kind : Kind) (low high : Int) (number : α → Int)
    (read : Except AccessError α) : Prop where
  exact : ∀ n, v.integer? = some n → low ≤ n → n < high → ∃ a, read = .ok a ∧ number a = n
  beyond : ∀ n, v.integer? = some n → n < low ∨ high ≤ n →
    read = .error (.mismatch (.kind kind) v.kind)
  other : v.integer? = none → read = .error (.mismatch (.kind kind) v.kind)

theorem readsInteger {α : Type} (v : Value) (kind : Kind) {low high : Int} {number : α → Int}
    {cast : SignedMagnitude → Option α}
    (hfits : ∀ a : SignedMagnitude, low ≤ a.toInt → a.toInt < high →
      ∃ x, cast a = some x ∧ number x = a.toInt)
    (hbeyond : ∀ a : SignedMagnitude, a.toInt < low ∨ high ≤ a.toInt → cast a = none) :
    ReadsInteger v kind low high number
      (v.expect (.kind kind) (v.signedMagnitude?.bind cast)) := by
  have hmap := map_signedMagnitude? v
  cases ha : v.signedMagnitude? with
  | none =>
    rw [ha, Option.map_none] at hmap
    exact ⟨fun n hn => (by rw [← hmap] at hn; cases hn), fun _ _ _ => rfl, fun _ => rfl⟩
  | some a =>
    rw [ha, Option.map_some] at hmap
    refine ⟨fun n hn hlow hhigh => ?_, fun n hn hout => ?_, fun hn => ?_⟩
    · rw [← hmap, Option.some.injEq] at hn
      subst hn
      obtain ⟨x, hx, hnumber⟩ := hfits a hlow hhigh
      exact ⟨x, by rw [Option.bind_some, hx]; rfl, hnumber⟩
    · rw [← hmap, Option.some.injEq] at hn
      subst hn
      rw [Option.bind_some, hbeyond a hout]
      rfl
    · rw [← hmap] at hn
      cases hn

theorem readsInteger_toInt64 (v : Value) :
    ReadsInteger v .int64 (-2 ^ 63) (2 ^ 63) Int64.toInt v.toInt64 := by
  rw [toInt64, Option.map_bind]
  refine readsInteger v .int64 (fun a hlow hhigh => ?_) (fun a hout => ?_)
  · obtain ⟨n, hn, hnumber⟩ :=
      @SignedMagnitude.toSigned?_of_fits a 64 (by decide) (by decide) hlow hhigh
    exact ⟨.ofBitVec n, by rw [Function.comp_apply, hn]; rfl, by rw [Int64.toInt_ofBitVec, hnumber]⟩
  · rw [Function.comp_apply, SignedMagnitude.toSigned?_eq_none hout]
    rfl

theorem readsInteger_toUInt64 (v : Value) :
    ReadsInteger v .uint64 0 (2 ^ 64) (fun n : UInt64 => n.toNat) v.toUInt64 := by
  rw [toUInt64, Option.map_bind]
  refine readsInteger v .uint64 (fun a hlow hhigh => ?_) (fun a hout => ?_)
  · obtain ⟨n, hn, hnumber⟩ := @SignedMagnitude.toUnsigned?_of_fits a 64 hlow hhigh
    exact ⟨.ofBitVec n, by rw [Function.comp_apply, hn]; rfl, hnumber⟩
  · rw [Function.comp_apply, SignedMagnitude.toUnsigned?_eq_none hout]
    rfl

theorem readsInteger_toInt128 (v : Value) :
    ReadsInteger v .int128 (-2 ^ 127) (2 ^ 127) BitVec.toInt v.toInt128 :=
  readsInteger v .int128
    (fun _ hlow hhigh => SignedMagnitude.toSigned?_of_fits (by decide) (by decide) hlow hhigh)
    fun _ hout => SignedMagnitude.toSigned?_eq_none hout

theorem readsInteger_toUInt128 (v : Value) :
    ReadsInteger v .uint128 0 (2 ^ 128) (fun n : BitVec 128 => n.toNat) v.toUInt128 :=
  readsInteger v .uint128 (fun _ hlow hhigh => SignedMagnitude.toUnsigned?_of_fits hlow hhigh)
    fun _ hout => SignedMagnitude.toUnsigned?_eq_none hout

theorem equalScalars_integer {v w : Value} {m n : Int} (hv : v.integer? = some m)
    (hw : w.integer? = some n) : v.equalScalars w = true ↔ m = n := by
  have hmapv := map_signedMagnitude? v
  have hmapw := map_signedMagnitude? w
  rw [hv, Option.map_eq_some_iff] at hmapv
  rw [hw, Option.map_eq_some_iff] at hmapw
  obtain ⟨a, ha, rfl⟩ := hmapv
  obtain ⟨b, hb, rfl⟩ := hmapw
  unfold equalScalars
  rw [ha, hb]
  exact SignedMagnitude.same_iff a b

theorem equal_scalar {v : Value} (h : v.isScalar = true) (w : Value) :
    v.equal w = v.equalScalars w := by
  cases v with
  | array items => cases h
  | object members => cases h
  | _ => simp [equal]

theorem isScalar_of_integer {v : Value} {n : Int} (h : v.integer? = some n) :
    v.isScalar = true := by
  cases v with
  | array items => cases h
  | object members => cases h
  | _ => rfl

theorem isSome_integer?_iff (v : Value) :
    v.integer?.isSome = true ↔ v.kind ∈ [Kind.int64, .uint64, .int128, .uint128] := by
  cases v <;> simp [integer?, kind]

/-- Whatever width a value keeps an integer in, it behaves as that integer. -/
structure Integers : Prop where
  kinds : ∀ v : Value, v.integer?.isSome = true ↔ v.kind ∈ [Kind.int64, .uint64, .int128, .uint128]
  magnitude : ∀ (v : Value) (n : Int), v.integer? = some n → ∃ a, v.signedMagnitude? = some a ∧
    a.magnitude.toNat = n.natAbs ∧ (a.negative = true ↔ n < 0)
  int64 : ∀ v, ReadsInteger v .int64 (-2 ^ 63) (2 ^ 63) Int64.toInt v.toInt64
  uint64 : ∀ v, ReadsInteger v .uint64 0 (2 ^ 64) (fun n : UInt64 => n.toNat) v.toUInt64
  int128 : ∀ v, ReadsInteger v .int128 (-2 ^ 127) (2 ^ 127) BitVec.toInt v.toInt128
  uint128 : ∀ v, ReadsInteger v .uint128 0 (2 ^ 128) (fun n : BitVec 128 => n.toNat) v.toUInt128
  equal : ∀ (v w : Value) (m n : Int), v.integer? = some m → w.integer? = some n →
    (v.equal w = true ↔ m = n)

theorem integers : Integers where
  kinds := isSome_integer?_iff
  magnitude _ _ h := exists_signedMagnitude h
  int64 := readsInteger_toInt64
  uint64 := readsInteger_toUInt64
  int128 := readsInteger_toInt128
  uint128 := readsInteger_toUInt128
  equal v w m n hv hw := by
    rw [equal_scalar (isScalar_of_integer hv)]
    exact equalScalars_integer hv hw

end Value
end JsonCodec
