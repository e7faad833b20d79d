import Mathlib
import JsonCodec.KeyHash

set_option autoImplicit false

/-!
# What a hash of a key keeps

Every step on the way to a hash is a bijection on words, so nothing that was mixed in gets lost
again: two keys of one length that differ in no more than one of the words that are read have
different hashes.
-/
namespace JsonCodec.KeyHash

open Function

theorem bijective_xor (w : UInt64) : Bijective fun h : UInt64 => h ^^^ w :=
  Involutive.bijective fun h => by rw [UInt64.xor_assoc, UInt64.xor_self, UInt64.xor_zero]

theorem bijective_xor_left (w : UInt64) : Bijective fun h : UInt64 => w ^^^ h :=
  Involutive.bijective fun h => by rw [← UInt64.xor_assoc, UInt64.xor_self, UInt64.zero_xor]

theorem bijective_mul_odd {c : UInt64} (hc : c.toNat % 2 = 1) :
    Bijective fun h : UInt64 => h * c := by
  refine Finite.injective_iff_bijective.1 fun a b hab => UInt64.toNat_inj.1 ?_
  have hcoprime : (2 ^ 64).gcd c.toNat = 1 :=
    Nat.Coprime.pow_left 64 (Nat.odd_iff.2 hc).coprime_two_left
  have hmul : a.toNat * c.toNat ≡ b.toNat * c.toNat [MOD 2 ^ 64] := by
    have := congrArg UInt64.toNat hab
    rwa [UInt64.toNat_mul, UInt64.toNat_mul] at this
  have hmod := Nat.ModEq.cancel_right_of_coprime hcoprime hmul
  rwa [Nat.ModEq, Nat.mod_eq_of_lt a.toNat_lt, Nat.mod_eq_of_lt b.toNat_lt] at hmod

/-- No word but 0 is its own shift to the right. -/
theorem eq_zero_of_shiftRight {k w : UInt64} (hk : k.toNat % 64 ≠ 0) (h : w >>> k = w) : w = 0 := by
  have hdiv : w.toNat / 2 ^ (k.toNat % 64) = w.toNat := by
    rw [← Nat.shiftRight_eq_div_pow, ← UInt64.toNat_shiftRight, h]
  have hzero := (Nat.div_eq_self.1 hdiv).resolve_right (Nat.one_lt_two_pow hk).ne'
  exact UInt64.toNat_inj.1 hzero

theorem bijective_xorShift {k : UInt64} (hk : k.toNat % 64 ≠ 0) :
    Bijective fun h : UInt64 => h ^^^ h >>> k := by
  refine Finite.injective_iff_bijective.1 fun a b hab => ?_
  -- what two words with one image differ by is its own shift
  have hshift : (a ^^^ b) >>> k = a ^^^ b := by
    rw [UInt64.shiftRight_xor]
    have hab : a ^^^ a >>> k = b ^^^ b >>> k := hab
    calc a >>> k ^^^ b >>> k
        = a ^^^ (a ^^^ a >>> k) ^^^ b >>> k := by
          rw [← UInt64.xor_assoc, UInt64.xor_self, UInt64.zero_xor]
      _ = a ^^^ b := by
          rw [hab, UInt64.xor_assoc, UInt64.xor_assoc, UInt64.xor_self, UInt64.xor_zero]
  exact UInt64.xor_eq_zero_iff.1 (eq_zero_of_shiftRight hk hshift)

theorem bijective_multiplier : Bijective fun h : UInt64 => h * multiplier :=
  bijective_mul_odd (by decide)

theorem bijective_seed : Bijective fun h : UInt64 => h * seed := bijective_mul_odd (by decide)

theorem bijective_mix (a b : UInt64) : Bijective fun h => mix h a b :=
  bijective_seed.comp ((bijective_xor b).comp (bijective_multiplier.comp (bijective_xor a)))

theorem bijective_mix_first (h b : UInt64) : Bijective fun a => mix h a b :=
  bijective_seed.comp ((bijective_xor b).comp (bijective_multiplier.comp (bijective_xor_left h)))

theorem bijective_mix_second (h a : UInt64) : Bijective fun b => mix h a b :=
  bijective_seed.comp (bijective_xor_left _)

theorem bijective_avalanche : Bijective avalanche :=
  (bijective_xorShift (k := 29) (by decide)).comp
    (bijective_seed.comp (bijective_xorShift (k := 32) (by decide)))

def piece (bytes : Bytes) (i n : Nat) : Bytes := (bytes.drop i).take n

def wordAt (bytes : Bytes) (k : Nat) : UInt64 := word (piece bytes (8 * k) 8)

theorem toNat_shift_or {w : UInt64} (hw : w.toNat < 2 ^ 56) (b : UInt8) :
    (w <<< 8 ||| b.toUInt64).toNat = b.toNat + 256 * w.toNat := by
  have hshift : (w <<< 8).toNat = w.toNat <<< 8 := by
    rw [UInt64.toNat_shiftLeft, show (8 : UInt64).toNat % 64 = 8 from rfl]
    refine Nat.mod_eq_of_lt ?_
    rw [Nat.shiftLeft_eq]
    omega
  rw [UInt64.toNat_or, UInt8.toNat_toUInt64, hshift, ← Nat.shiftLeft_add_eq_or_of_lt b.toNat_lt,
    Nat.shiftLeft_eq]
  omega

theorem lt_of_mem_map_toNat {bytes : Bytes} : ∀ d ∈ bytes.map UInt8.toNat, d < 256 := by
  intro d hd
  obtain ⟨b, -, rfl⟩ := List.mem_map.1 hd
  exact b.toNat_lt

/-- The bytes of a word are its digits to base 256. -/
theorem toNat_word {bytes : Bytes} (h : bytes.length ≤ 8) :
    (word bytes).toNat = Nat.ofDigits 256 (bytes.map UInt8.toNat) := by
  induction bytes with
  | nil => rfl
  | cons b bytes ih =>
    rw [List.length_cons] at h
    have htail := ih (Nat.le_of_succ_le h)
    have hlt : (word bytes).toNat < 2 ^ 56 := by
      calc (word bytes).toNat
          = Nat.ofDigits 256 (bytes.map UInt8.toNat) := htail
        _ < 256 ^ (bytes.map UInt8.toNat).length :=
          Nat.ofDigits_lt_base_pow_length (by decide) lt_of_mem_map_toNat
        _ ≤ 256 ^ 7 := Nat.pow_le_pow_right (by decide) (by rw [List.length_map]; omega)
        _ = 2 ^ 56 := by decide
    rw [List.map_cons, Nat.ofDigits_cons, ← htail]
    exact toNat_shift_or hlt b

theorem word_inj {x y : Bytes} (hlength : x.length = y.length) (h : x.length ≤ 8)
    (hword : word x = word y) : x = y := by
  have hdigits := congrArg UInt64.toNat hword
  rw [toNat_word h, toNat_word (hlength ▸ h)] at hdigits
  have hmap : x.map UInt8.toNat = y.map UInt8.toNat :=
    Nat.ofDigits_inj_of_len_eq (by decide) (by rw [List.length_map, List.length_map, hlength])
      lt_of_mem_map_toNat lt_of_mem_map_toNat hdigits
  exact List.map_injective_iff.2 (fun _ _ => UInt8.toNat_inj.1) hmap

theorem mixBlocks_zero (bytes : Bytes) (h : UInt64) : mixBlocks 0 bytes h = h := by
  rw [mixBlocks.eq_def]

theorem mixBlocks_first (blocks : Nat) (bytes : Bytes) (h : UInt64) :
    mixBlocks (blocks + 1) bytes h =
      mixBlocks blocks (bytes.drop 16) (mix h (wordAt bytes 0) (wordAt bytes 1)) := by
  rw [mixBlocks.eq_def]
  rfl

theorem wordAt_drop (bytes : Bytes) (k : Nat) :
    wordAt (bytes.drop 16) k = wordAt bytes (k + 2) := by
  rw [wordAt, wordAt, piece, piece, List.drop_drop, show 16 + 8 * k = 8 * (k + 2) by omega]

/-- The block that is mixed in last takes the last two words of all blocks. -/
theorem mixBlocks_last (blocks : Nat) (bytes : Bytes) (h : UInt64) :
    mixBlocks (blocks + 1) bytes h = mix (mixBlocks blocks bytes h)
      (wordAt bytes (2 * blocks)) (wordAt bytes (2 * blocks + 1)) := by
  induction blocks generalizing bytes h with
  | zero => rw [mixBlocks_first, mixBlocks_zero, mixBlocks_zero]
  | succ blocks ih =>
    rw [mixBlocks_first, ih, mixBlocks_first, wordAt_drop, wordAt_drop, Nat.mul_succ,
      Nat.add_right_comm]

theorem bijective_mixBlocks (blocks : Nat) (bytes : Bytes) :
    Bijective (mixBlocks blocks bytes) := by
  induction blocks with
  | zero =>
    rw [funext (mixBlocks_zero bytes)]
    exact bijective_id
  | succ blocks ih =>
    rw [funext (mixBlocks_last blocks bytes)]
    exact (bijective_mix _ _).comp ih

variable {x y : Bytes}

theorem mixBlocks_congr {blocks : Nat} (hwords : ∀ k < 2 * blocks, wordAt x k = wordAt y k)
    (h : UInt64) : mixBlocks blocks x h = mixBlocks blocks y h := by
  induction blocks with
  | zero => rw [mixBlocks_zero, mixBlocks_zero]
  | succ blocks ih =>
    rw [mixBlocks_last, mixBlocks_last, ih fun k hk => hwords k (by omega),
      hwords (2 * blocks) (by omega), hwords (2 * blocks + 1) (by omega)]

/-- One word that differs shows in what all blocks are mixed to. -/
theorem mixBlocks_ne {blocks j : Nat} (hj : j < 2 * blocks) (hne : wordAt x j ≠ wordAt y j)
    (hwords : ∀ k < 2 * blocks, k ≠ j → wordAt x k = wordAt y k) (h : UInt64) :
    mixBlocks blocks x h ≠ mixBlocks blocks y h := by
  -- until its block the mixed words are the same; behind it they never meet again
  induction blocks with
  | zero => omega
  | succ blocks ih =>
    rw [mixBlocks_last, mixBlocks_last]
    obtain hlt | rfl | rfl : j < 2 * blocks ∨ j = 2 * blocks ∨ j = 2 * blocks + 1 := by omega
    · have hearlier := ih hlt fun k hk => hwords k (by omega)
      rw [hwords (2 * blocks) (by omega) (by omega), hwords (2 * blocks + 1) (by omega) (by omega)]
      exact (bijective_mix _ _).injective.ne hearlier
    · rw [mixBlocks_congr (fun k hk => hwords k (by omega) (by omega)) h,
        hwords (2 * blocks + 1) (by omega) (by omega)]
      exact (bijective_mix_first _ _).injective.ne hne
    · rw [mixBlocks_congr (fun k hk => hwords k (by omega) (by omega)) h,
        hwords (2 * blocks) (by omega) (by omega)]
      exact (bijective_mix_second _ _).injective.ne hne

/-- Two texts of one length that differ, though only in bytes from one place up to another. -/
structure DifferWithin (first last : Nat) (x y : Bytes) : Prop where
  length : x.length = y.length
  ne : x ≠ y
  outside : ∀ i, i < first ∨ last ≤ i → x[i]? = y[i]?

namespace DifferWithin

variable {first last i n : Nat}

theorem upToEnd (h : DifferWithin first last x y) : DifferWithin first x.length x y where
  length := h.length
  ne := h.ne
  outside i hi := by
    obtain hi | hi := hi
    · exact h.outside i (.inl hi)
    · rw [List.getElem?_eq_none hi, List.getElem?_eq_none (h.length ▸ hi)]

theorem piece_eq (h : DifferWithin first last x y) (hi : i + n ≤ first ∨ last ≤ i) :
    piece x i n = piece y i n := by
  refine List.ext_getElem? fun m => ?_
  rw [piece, piece, List.getElem?_take, List.getElem?_take, List.getElem?_drop, List.getElem?_drop]
  split_ifs with hm
  · exact h.outside (i + m) (by omega)
  · rfl

theorem piece_ne (h : DifferWithin first last x y) (hfirst : i ≤ first) (hlast : last ≤ i + n) :
    piece x i n ≠ piece y i n := by
  intro hpiece
  refine h.ne (List.ext_getElem? fun m => ?_)
  by_cases hm : i ≤ m ∧ m < i + n
  · have hget := congrArg (fun bytes => bytes[m - i]?) hpiece
    simp only [piece, List.getElem?_take, List.getElem?_drop] at hget
    rwa [if_pos (by omega), if_pos (by omega), Nat.add_sub_cancel' hm.1] at hget
  · exact h.outside m (by omega)

theorem word_ne (h : DifferWithin first last x y) (hfirst : i ≤ first) (hlast : last ≤ i + 8) :
    word (piece x i 8) ≠ word (piece y i 8) := by
  intro hword
  have hlength : (piece x i 8).length = (piece y i 8).length := by
    simp only [piece, List.length_take, List.length_drop, h.length]
  exact h.piece_ne hfirst hlast (word_inj hlength (List.length_take_le 8 _) hword)

end DifferWithin

def start (length : Nat) : UInt64 := seed ^^^ length.toUInt64 * multiplier

theorem lastBytes_eq_piece (n : Nat) (bytes : Bytes) :
    lastBytes n bytes = piece bytes (bytes.length - n) n := by
  have hlength : (bytes.drop (bytes.length - n)).length ≤ n := by
    rw [List.length_drop]
    omega
  exact (List.take_of_length_le hlength).symm

theorem ofBytes_middle (h9 : 9 ≤ x.length) (h16 : x.length ≤ 16) :
    ofBytes x = avalanche
      (mix (start x.length) (word (piece x 0 8)) (word (piece x (x.length - 8) 8))) := by
  rw [← lastBytes_eq_piece]
  simp only [ofBytes, shortWords, if_pos (Nat.lt_of_succ_le h9), if_pos h16, start]
  rfl

theorem ofBytes_long (h : 16 < x.length) :
    ofBytes x = avalanche (mix (mixBlocks (x.length / 16) x (start x.length))
      (word ((lastBytes 16 x).take 8)) (word ((lastBytes 16 x).drop 8))) := by
  simp only [ofBytes, if_neg (Nat.not_le.2 h), start]

theorem ofBytes_ne_of_front (h9 : 9 ≤ x.length) (h16 : x.length ≤ 16)
    (h : DifferWithin 0 (x.length - 8) x y) : ofBytes x ≠ ofBytes y := by
  have hlast : piece x (x.length - 8) 8 = piece y (x.length - 8) 8 := h.piece_eq (.inr le_rfl)
  have hfirst : word (piece x 0 8) ≠ word (piece y 0 8) := h.word_ne le_rfl (by omega)
  rw [ofBytes_middle h9 h16, ofBytes_middle (h.length ▸ h9) (h.length ▸ h16), ← h.length, hlast]
  exact bijective_avalanche.injective.ne ((bijective_mix_first _ _).injective.ne hfirst)

theorem ofBytes_ne_of_back (h9 : 9 ≤ x.length) (h16 : x.length ≤ 16)
    (h : DifferWithin 8 x.length x y) : ofBytes x ≠ ofBytes y := by
  have hfirst : piece x 0 8 = piece y 0 8 := h.piece_eq (.inl le_rfl)
  have hlast : word (piece x (x.length - 8) 8) ≠ word (piece y (x.length - 8) 8) :=
    h.word_ne (by omega) (by omega)
  rw [ofBytes_middle h9 h16, ofBytes_middle (h.length ▸ h9) (h.length ▸ h16), ← h.length, hfirst]
  exact bijective_avalanche.injective.ne ((bijective_mix_second _ _).injective.ne hlast)

theorem ofBytes_ne_of_aligned {j : Nat} (hlong : 16 < x.length)
    (htail : lastBytes 16 x = lastBytes 16 y) (h : DifferWithin (8 * j) (8 * j + 8) x y) :
    ofBytes x ≠ ofBytes y := by
  -- a word that starts in the tail has no byte left in which to differ
  have hbefore : 8 * j < x.length - 16 := by
    by_contra hle
    rw [lastBytes_eq_piece, lastBytes_eq_piece, ← h.length] at htail
    exact h.upToEnd.piece_ne (Nat.not_lt.1 hle) (by omega) htail
  have hblocks : mixBlocks (x.length / 16) x (start x.length) ≠
      mixBlocks (x.length / 16) y (start x.length) :=
    mixBlocks_ne (j := j) (by omega) (h.word_ne le_rfl le_rfl)
      (fun k _ hk => congrArg word (h.piece_eq (by omega))) _
  rw [ofBytes_long hlong, ofBytes_long (h.length ▸ hlong), ← h.length, htail]
  exact bijective_avalanche.injective.ne ((bijective_mix _ _).injective.ne hblocks)

/-- What hashing does not lose. -/
structure Lossless : Prop where
  xor : ∀ w, Bijective fun h : UInt64 => h ^^^ w
  times : ∀ c ∈ [multiplier, seed], Bijective fun h : UInt64 => h * c
  shift : ∀ k ∈ [32, 29], Bijective fun h : UInt64 => h ^^^ h >>> k
  block : ∀ a b, Bijective fun h => mix h a b
  blocks : ∀ n bytes, Bijective (mixBlocks n bytes)
  avalanche : Bijective avalanche
  first : ∀ h b, Bijective fun a => mix h a b
  second : ∀ h a, Bijective fun b => mix h a b
  /-- Keys beyond sixteen bytes with one tail that differ in a single word, counted from the start,
  have different hashes. -/
  aligned : ∀ x y j, 16 < x.length → lastBytes 16 x = lastBytes 16 y →
    DifferWithin (8 * j) (8 * j + 8) x y → ofBytes x ≠ ofBytes y
  front : ∀ x y, 9 ≤ x.length → x.length ≤ 16 → DifferWithin 0 (x.length - 8) x y →
    ofBytes x ≠ ofBytes y
  back : ∀ x y, 9 ≤ x.length → x.length ≤ 16 → DifferWithin 8 x.length x y →
    ofBytes x ≠ ofBytes y

theorem lossless : Lossless where
  xor := bijective_xor
  times := by
    intro c hc
    obtain rfl | rfl := List.mem_pair.1 hc
    · exact bijective_multiplier
    · exact bijective_seed
  shift := by
    intro k hk
    obtain rfl | rfl := List.mem_pair.1 hk
    · exact bijective_xorShift (by decide)
    · exact bijective_xorShift (by decide)
  block := bijective_mix
  blocks := bijective_mixBlocks
  avalanche := bijective_avalanche
  first := bijective_mix_first
  second := bijective_mix_second
  aligned _ _ _ := ofBytes_ne_of_aligned
  front _ _ := ofBytes_ne_of_front
  back _ _ := ofBytes_ne_of_back

/-- Two keys of which the word that differs reaches into the common tail. -/
theorem lossless_overlap :
    lastBytes 16 (List.replicate 33 0x61) = lastBytes 16 ((List.replicate 33 0x61).set 16 0x62) ∧
      DifferWithin 16 24 (List.replicate 33 0x61) ((List.replicate 33 0x61).set 16 0x62) ∧
      ofBytes (List.replicate 33 0x61) ≠ ofBytes ((List.replicate 33 0x61).set 16 0x62) := by
  have htail : lastBytes 16 (List.replicate 33 0x61) =
      lastBytes 16 ((List.replicate 33 0x61).set 16 0x62) := by decide
  have hdiffer :
      DifferWithin 16 24 (List.replicate 33 0x61) ((List.replicate 33 0x61).set 16 0x62) :=
    ⟨by decide, by decide, fun i hi => (List.getElem?_set_ne (by omega)).symm⟩
  exact ⟨htail, hdiffer, lossless.aligned _ _ 2 (by decide) htail hdiffer⟩

end JsonCodec.KeyHash
