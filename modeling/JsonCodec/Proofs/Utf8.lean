import Mathlib
import JsonCodec.Utf8

set_option autoImplicit false

namespace JsonCodec.Utf8

def IsScalar (cp : Nat) : Prop := cp ≤ 0x10FFFF ∧ isSurrogate cp = false

/-- A text that is the bytes of some code points. -/
def WellFormed (text : Bytes) : Prop :=
  ∃ cps : List Nat, (∀ cp ∈ cps, IsScalar cp) ∧ text = cps.flatMap encode

theorem wellFormed_nil : WellFormed [] := ⟨[], by simp, rfl⟩

theorem WellFormed.append {a b : Bytes} (ha : WellFormed a) (hb : WellFormed b) :
    WellFormed (a ++ b) := by
  obtain ⟨as, has, rfl⟩ := ha
  obtain ⟨bs, hbs, rfl⟩ := hb
  refine ⟨as ++ bs, fun cp hcp => ?_, List.flatMap_append.symm⟩
  exact (List.mem_append.1 hcp).elim (has cp) (hbs cp)

theorem wellFormed_encode {cp : Nat} (h : IsScalar cp) : WellFormed (encode cp) :=
  ⟨[cp], by simpa using h, by simp⟩

theorem encode_ascii {b : UInt8} (h : b < 0x80) : encode b.toNat = [b] := by
  have hb : b.toNat < 0x80 := UInt8.lt_iff_toNat_lt.1 h
  rw [encode, if_pos hb]
  simp

theorem isScalar_ascii {b : UInt8} (h : b < 0x80) : IsScalar b.toNat := by
  have hb : b.toNat < 0x80 := UInt8.lt_iff_toNat_lt.1 h
  simp only [IsScalar, isSurrogate, Bool.and_eq_false_iff, decide_eq_false_iff_not]
  omega

theorem wellFormed_ascii {text : Bytes} (h : ∀ b ∈ text, b < 0x80) : WellFormed text := by
  induction text with
  | nil => exact wellFormed_nil
  | cons b text ih =>
    have hb := h b List.mem_cons_self
    have hhead := wellFormed_encode (isScalar_ascii hb)
    rw [encode_ascii hb] at hhead
    exact hhead.append (ih fun c hc => h c (List.mem_cons_of_mem b hc))

theorem le_of_mem_encode {cp : Nat} (h : 0x80 ≤ cp) {b : UInt8} (hb : b ∈ encode cp) :
    0x80 ≤ b := by
  have hcont (n : Nat) : 0x80 ≤ continuation n := by
    rw [continuation, UInt8.le_iff_toNat_le]
    simp
    omega
  rw [encode, if_neg (by omega)] at hb
  split_ifs at hb
  · rcases List.mem_cons.1 hb with rfl | hb
    · rw [UInt8.le_iff_toNat_le]
      simp
      omega
    · simp only [List.mem_cons, List.not_mem_nil, or_false] at hb
      rw [hb]
      exact hcont _
  · rcases List.mem_cons.1 hb with rfl | hb
    · rw [UInt8.le_iff_toNat_le]
      simp
      omega
    · simp only [List.mem_cons, List.not_mem_nil, or_false] at hb
      rcases hb with rfl | rfl <;> exact hcont _
  · rcases List.mem_cons.1 hb with rfl | hb
    · rw [UInt8.le_iff_toNat_le]
      simp
      omega
    · simp only [List.mem_cons, List.not_mem_nil, or_false] at hb
      rcases hb with rfl | rfl | rfl <;> exact hcont _
  · cases hb

/-- An ASCII byte is no part of what stands on either side of it. -/
theorem wellFormed_append_cons_iff {a b : Bytes} {x : UInt8} (hx : x < 0x80) :
    WellFormed (a ++ x :: b) ↔ WellFormed a ∧ WellFormed b := by
  have hbyte : WellFormed [x] := wellFormed_ascii (by simpa using hx)
  constructor
  · rintro ⟨cps, hcps, htext⟩
    induction cps generalizing a with
    | nil => simp at htext
    | cons cp cps ih =>
      have hcp := hcps cp List.mem_cons_self
      have hrest : ∀ c ∈ cps, IsScalar c := fun c hc => hcps c (List.mem_cons_of_mem cp hc)
      rw [List.flatMap_cons] at htext
      rcases List.append_eq_append_iff.1 htext with ⟨more, hmore, htail⟩ | ⟨more, rfl, htail⟩
      · rcases more with _ | ⟨y, more⟩
        · obtain ⟨-, hb⟩ := @ih [] hrest htail
          rw [List.append_nil] at hmore
          rw [← hmore]
          exact ⟨wellFormed_encode hcp, hb⟩
        · -- the byte belongs to this code point, which is then the byte itself
          obtain ⟨rfl, hb⟩ := List.cons.inj htail
          have hlow : cp < 0x80 := by
            by_contra hle
            have hmem : x ∈ encode cp := by simp [hmore]
            have := UInt8.le_iff_toNat_le.1 (le_of_mem_encode (Nat.le_of_not_lt hle) hmem)
            have := UInt8.lt_iff_toNat_lt.1 hx
            simp at *
            omega
          rw [encode, if_pos hlow] at hmore
          have ha : a = [] := by
            rcases a with _ | ⟨z, a⟩
            · rfl
            · simp at hmore
          subst ha
          obtain ⟨-, rfl⟩ := List.cons.inj (hmore : _ = x :: more)
          exact ⟨wellFormed_nil, cps, hrest, hb⟩
      · obtain ⟨ha, hb⟩ := ih hrest htail.symm
        exact ⟨(wellFormed_encode hcp).append ha, hb⟩
  · rintro ⟨ha, hb⟩
    exact ha.append (hbyte.append hb)

theorem WellFormed.cons_ascii {b : UInt8} {text : Bytes} (h : WellFormed text) (hb : b < 0x80) :
    WellFormed (b :: text) :=
  (@wellFormed_append_cons_iff [] text b hb).2 ⟨wellFormed_nil, h⟩

/-- A well-formed text may be cut behind an ASCII byte. -/
theorem WellFormed.split {a b : Bytes} {x : UInt8} (hx : x < 0x80)
    (h : WellFormed (a ++ x :: b)) : WellFormed (a ++ [x]) ∧ WellFormed b := by
  obtain ⟨ha, hb⟩ := (wellFormed_append_cons_iff hx).1 h
  exact ⟨(wellFormed_append_cons_iff hx).2 ⟨ha, wellFormed_nil⟩, hb⟩

theorem wellFormed_ascii_append {run rest : Bytes} (h : ∀ b ∈ run, b < 0x80) :
    WellFormed (run ++ rest) ↔ WellFormed rest := by
  induction run with
  | nil => exact Iff.rfl
  | cons b run ih =>
    have hcut := @wellFormed_append_cons_iff [] (run ++ rest) b (h b List.mem_cons_self)
    rw [List.nil_append, ih fun c hc => h c (List.mem_cons_of_mem b hc)] at hcut
    exact hcut.trans (and_iff_right wellFormed_nil)

/-- Nor is an ASCII text a part of what stands on either side of it. -/
theorem wellFormed_append_ascii_iff {a b : Bytes} {x : UInt8} {more : Bytes}
    (h : ∀ y ∈ x :: more, y < 0x80) :
    WellFormed (a ++ (x :: more ++ b)) ↔ WellFormed a ∧ WellFormed b := by
  rw [List.cons_append, wellFormed_append_cons_iff (h x List.mem_cons_self),
    wellFormed_ascii_append fun y hy => h y (List.mem_cons_of_mem x hy)]

theorem wellFormed_append_ascii {run rest : Bytes} (h : ∀ b ∈ rest, b < 0x80) :
    WellFormed (run ++ rest) ↔ WellFormed run := by
  cases rest with
  | nil => rw [List.append_nil]
  | cons b rest =>
    have hcut := @wellFormed_append_ascii_iff run [] b rest h
    rw [List.append_nil] at hcut
    exact hcut.trans (and_iff_left wellFormed_nil)

theorem toNat_continuation (n : Nat) : (continuation n).toNat = 0x80 + n % 64 := by
  unfold continuation
  simp
  omega

theorem isContinuation_iff (b : UInt8) : isContinuation b = true ↔ 0x80 ≤ b.toNat ∧ b.toNat < 0xC0 := by
  simp only [isContinuation, Bool.and_eq_true, decide_eq_true_eq, UInt8.le_iff_toNat_le,
    UInt8.lt_iff_toNat_lt]
  rfl

theorem sequenceLength_eq (lead : UInt8) :
    sequenceLength lead =
      if lead.toNat < 0x80 then 1
      else if lead.toNat < 0xC0 then 0
      else if lead.toNat < 0xE0 then 2
      else if lead.toNat < 0xF0 then 3
      else if lead.toNat < 0xF8 then 4
      else 0 := by
  simp only [sequenceLength, UInt8.lt_iff_toNat_lt]
  rfl

def spelled (lead : UInt8) (follow : Bytes) : Nat :=
  follow.foldl (fun cp b => cp * 64 + b.toNat % 64) (leadBits (follow.length + 1) lead)

/-- Bytes beyond ASCII, as many as the first of them tells and as their code point needs. -/
structure IsSequence (lead : UInt8) (follow : Bytes) : Prop where
  high : 0x80 ≤ lead.toNat
  length : sequenceLength lead = follow.length + 1
  continues : ∀ b ∈ follow, 0x80 ≤ b.toNat ∧ b.toNat < 0xC0
  least : leastOf (follow.length + 1) ≤ spelled lead follow

theorem sequenceLength_ne_one {lead : UInt8} (h : 0x80 ≤ lead.toNat) : sequenceLength lead ≠ 1 := by
  rw [sequenceLength_eq]
  split_ifs <;> omega

theorem afterSequence?_eq_some {lead : UInt8} {tail rest : Bytes} (h : 0x80 ≤ lead.toNat) :
    afterSequence? lead tail = some rest ↔
      ∃ follow, tail = follow ++ rest ∧ IsSequence lead follow ∧
        IsScalar (spelled lead follow) := by
  have hlead : ¬ lead < 0x80 := by
    rw [UInt8.lt_iff_toNat_lt]
    exact not_lt.2 h
  rw [afterSequence?, if_neg hlead]
  constructor
  · intro hs
    simp only at hs
    split_ifs at hs with hbad hcp
    simp only [Bool.or_eq_true, decide_eq_true_eq, not_or, Bool.not_eq_true', Bool.not_eq_false,
      List.all_eq_true, isContinuation_iff] at hbad hcp
    obtain ⟨⟨h0, hshort⟩, hall⟩ := hbad
    obtain ⟨⟨hleast, hsur⟩, hmax⟩ := hcp
    have hlen : (tail.take (sequenceLength lead - 1)).length + 1 = sequenceLength lead := by
      have := List.length_take_le (sequenceLength lead - 1) tail
      omega
    refine ⟨tail.take (sequenceLength lead - 1), ?_, ⟨h, hlen.symm, hall, ?_⟩, ?_, ?_⟩
    · rw [← Option.some.inj hs, List.take_append_drop]
    · rw [spelled, hlen]
      exact not_lt.1 hleast
    · rw [spelled, hlen]
      exact not_lt.1 hmax
    · rw [spelled, hlen]
      exact Bool.eq_false_iff.2 hsur
  · rintro ⟨follow, rfl, ⟨-, hlen, hall, hleast⟩, hmax, hsur⟩
    have htake : (follow ++ rest).take (sequenceLength lead - 1) = follow := by
      rw [hlen, Nat.add_sub_cancel, List.take_left]
    have hdrop : (follow ++ rest).drop (sequenceLength lead - 1) = rest := by
      rw [hlen, Nat.add_sub_cancel, List.drop_left]
    have hcont : follow.all isContinuation = true :=
      List.all_eq_true.2 fun b hb => (isContinuation_iff b).2 (hall b hb)
    rw [spelled] at hleast hmax hsur
    simp only [htake, hdrop]
    rw [hlen, hcont, if_neg (by simp), if_neg]
    simp only [Bool.or_eq_true, decide_eq_true_eq, not_or, not_lt, Bool.not_eq_true]
    exact ⟨⟨hleast, hsur⟩, hmax⟩

theorem encode_spelled {lead : UInt8} {follow : Bytes} (h : IsSequence lead follow)
    (hmax : spelled lead follow ≤ 0x10FFFF) : encode (spelled lead follow) = lead :: follow := by
  obtain ⟨h, hlen, hall, hleast⟩ := h
  have hone := sequenceLength_ne_one h
  rw [sequenceLength_eq] at hlen
  rcases follow with _ | ⟨x, _ | ⟨y, _ | ⟨z, _ | ⟨w, more⟩⟩⟩⟩
  · rw [sequenceLength_eq] at hone
    exact absurd hlen hone
  · have hx := hall x (by simp)
    have hl : 0xC0 ≤ lead.toNat ∧ lead.toNat < 0xE0 := by
      simp only [List.length_cons, List.length_nil] at hlen
      split_ifs at hlen <;> omega
    simp only [spelled, leadBits, leastOf, List.length_cons, List.length_nil, List.foldl_cons,
      List.foldl_nil] at hleast hmax ⊢
    rw [encode, if_neg (by omega), if_pos (by omega)]
    simp only [List.cons.injEq, and_true, ← UInt8.toNat_inj, toNat_continuation]
    simp
    omega
  · have hx := hall x (by simp)
    have hy := hall y (by simp)
    have hl : 0xE0 ≤ lead.toNat ∧ lead.toNat < 0xF0 := by
      simp only [List.length_cons, List.length_nil] at hlen
      split_ifs at hlen <;> omega
    simp only [spelled, leadBits, leastOf, List.length_cons, List.length_nil, List.foldl_cons,
      List.foldl_nil] at hleast hmax ⊢
    rw [encode, if_neg (by omega), if_neg (by omega), if_pos (by omega)]
    simp only [List.cons.injEq, and_true, ← UInt8.toNat_inj, toNat_continuation]
    simp
    omega
  · have hx := hall x (by simp)
    have hy := hall y (by simp)
    have hz := hall z (by simp)
    have hl : 0xF0 ≤ lead.toNat ∧ lead.toNat < 0xF8 := by
      simp only [List.length_cons, List.length_nil] at hlen
      split_ifs at hlen <;> omega
    simp only [spelled, leadBits, leastOf, List.length_cons, List.length_nil, List.foldl_cons,
      List.foldl_nil] at hleast hmax ⊢
    rw [encode, if_neg (by omega), if_neg (by omega), if_neg (by omega), if_pos (by omega)]
    simp only [List.cons.injEq, and_true, ← UInt8.toNat_inj, toNat_continuation]
    simp
    omega
  · simp only [List.length_cons] at hlen
    split_ifs at hlen <;> omega

theorem exists_sequence {cp : Nat} (h : 0x80 ≤ cp) (hmax : cp ≤ 0x10FFFF) :
    ∃ lead follow, encode cp = lead :: follow ∧ IsSequence lead follow ∧
      spelled lead follow = cp := by
  have hcont (n : Nat) : 0x80 ≤ (continuation n).toNat ∧ (continuation n).toNat < 0xC0 := by
    rw [toNat_continuation]
    omega
  have hlead {n : Nat} (hn : n < 0x100) : n.toUInt8.toNat = n := by
    simp
    omega
  rw [encode, if_neg (by omega)]
  -- the code point is spelled first, since the bound of its length is about what is spelled
  split_ifs with h₂ h₃
  · have hcp : spelled (0xC0 + cp / 64).toUInt8 [continuation cp] = cp := by
      simp only [spelled, leadBits, List.length_cons, List.length_nil, List.foldl_cons,
        List.foldl_nil, toNat_continuation]
      rw [hlead (by omega)]
      omega
    refine ⟨_, _, rfl, ⟨?_, ?_, by simpa using hcont _, by rwa [hcp]⟩, hcp⟩
    · rw [hlead (by omega)]
      omega
    · rw [sequenceLength_eq, hlead (by omega), if_neg (by omega), if_neg (by omega),
        if_pos (by omega)]
      rfl
  · have hcp : spelled (0xE0 + cp / 4096).toUInt8 [continuation (cp / 64), continuation cp] =
        cp := by
      simp only [spelled, leadBits, List.length_cons, List.length_nil, List.foldl_cons,
        List.foldl_nil, toNat_continuation]
      rw [hlead (by omega)]
      omega
    refine ⟨_, _, rfl, ⟨?_, ?_, by simpa using ⟨hcont _, hcont _⟩, ?_⟩, hcp⟩
    · rw [hlead (by omega)]
      omega
    · rw [sequenceLength_eq, hlead (by omega), if_neg (by omega), if_neg (by omega),
        if_neg (by omega), if_pos (by omega)]
      rfl
    · rw [hcp]
      exact Nat.le_of_not_lt h₂
  · have hcp : spelled (0xF0 + cp / 262144).toUInt8
        [continuation (cp / 4096), continuation (cp / 64), continuation cp] = cp := by
      simp only [spelled, leadBits, List.length_cons, List.length_nil, List.foldl_cons,
        List.foldl_nil, toNat_continuation]
      rw [hlead (by omega)]
      omega
    refine ⟨_, _, rfl, ⟨?_, ?_, by simpa using ⟨hcont _, hcont _, hcont _⟩, ?_⟩, hcp⟩
    · rw [hlead (by omega)]
      omega
    · rw [sequenceLength_eq, hlead (by omega), if_neg (by omega), if_neg (by omega),
        if_neg (by omega), if_neg (by omega), if_pos (by omega)]
      rfl
    · rw [hcp]
      exact Nat.le_of_not_lt h₃

/-- A sequence is taken off a text exactly if it is the bytes of a code point. -/
theorem afterSequence?_iff (lead : UInt8) (tail rest : Bytes) :
    afterSequence? lead tail = some rest ↔
      ∃ cp, IsScalar cp ∧ lead :: tail = encode cp ++ rest := by
  rcases Nat.lt_or_ge lead.toNat 0x80 with hlow | hhigh
  · have hlead : lead < 0x80 := UInt8.lt_iff_toNat_lt.2 hlow
    rw [afterSequence?, if_pos hlead, Option.some.injEq]
    constructor
    · rintro rfl
      exact ⟨lead.toNat, isScalar_ascii hlead, by rw [encode_ascii hlead]; rfl⟩
    · rintro ⟨cp, hcp, htext⟩
      have hlt : cp < 0x80 := by
        by_contra hle
        obtain ⟨b, follow, he, hseq, -⟩ := exists_sequence (Nat.le_of_not_lt hle) hcp.1
        rw [he] at htext
        obtain ⟨rfl, -⟩ := List.cons.inj htext
        exact absurd hlow (Nat.not_lt.2 hseq.high)
      rw [encode, if_pos hlt] at htext
      exact (List.cons.inj htext).2
  · rw [afterSequence?_eq_some hhigh]
    constructor
    · rintro ⟨follow, rfl, hseq, hscalar⟩
      exact ⟨_, hscalar, by rw [encode_spelled hseq hscalar.1]; rfl⟩
    · rintro ⟨cp, hcp, htext⟩
      have hge : 0x80 ≤ cp := by
        by_contra hlt
        rw [encode, if_pos (Nat.lt_of_not_le hlt)] at htext
        obtain ⟨rfl, -⟩ := List.cons.inj htext
        simp at hhigh
        omega
      obtain ⟨b, follow, he, hseq, hspelled⟩ := exists_sequence hge hcp.1
      rw [he] at htext
      obtain ⟨rfl, rfl⟩ := List.cons.inj htext
      exact ⟨follow, rfl, hseq, hspelled ▸ hcp⟩

theorem wellFormed_cons_iff (lead : UInt8) (tail : Bytes) :
    WellFormed (lead :: tail) ↔ ∃ rest, afterSequence? lead tail = some rest ∧ WellFormed rest := by
  constructor
  · rintro ⟨cps, hcps, htext⟩
    rcases cps with _ | ⟨cp, cps⟩
    · cases htext
    · refine ⟨cps.flatMap encode, ?_, cps, fun c hc => hcps c (List.mem_cons_of_mem cp hc), rfl⟩
      exact (afterSequence?_iff _ _ _).2 ⟨cp, hcps cp List.mem_cons_self, htext⟩
  · rintro ⟨rest, hs, hrest⟩
    obtain ⟨cp, hcp, htext⟩ := (afterSequence?_iff _ _ _).1 hs
    rw [htext]
    exact (wellFormed_encode hcp).append hrest

theorem or_ascii {a b : UInt8} (h : a ||| b < 0x80) : a < 0x80 ∧ b < 0x80 := by
  rw [UInt8.lt_iff_toNat_lt, UInt8.toNat_or] at h
  rw [UInt8.lt_iff_toNat_lt, UInt8.lt_iff_toNat_lt]
  exact ⟨Nat.left_le_or.trans_lt h, Nat.right_le_or.trans_lt h⟩

theorem group_ascii {a b c d e f g h : UInt8}
    (hlow : a ||| b ||| c ||| d ||| e ||| f ||| g ||| h < 0x80) :
    ∀ x ∈ [a, b, c, d, e, f, g, h], x < 0x80 := by
  obtain ⟨h₁, hh⟩ := or_ascii hlow
  obtain ⟨h₂, hg⟩ := or_ascii h₁
  obtain ⟨h₃, hf⟩ := or_ascii h₂
  obtain ⟨h₄, he⟩ := or_ascii h₃
  obtain ⟨h₅, hd⟩ := or_ascii h₄
  obtain ⟨h₆, hc⟩ := or_ascii h₅
  obtain ⟨ha, hb⟩ := or_ascii h₆
  simpa using ⟨ha, hb, hc, hd, he, hf, hg, hh⟩

theorem skipAscii_spec (text : Bytes) :
    ∃ run, text = run ++ skipAscii text ∧ ∀ b ∈ run, b < 0x80 := by
  fun_induction skipAscii text with
  | case1 a b c d e f g h rest hlow ih =>
    obtain ⟨run, hrun, hall⟩ := ih
    refine ⟨[a, b, c, d, e, f, g, h] ++ run, ?_, fun x hx => ?_⟩
    · simp only [List.cons_append, List.nil_append, ← hrun]
    · exact (List.mem_append.1 hx).elim (group_ascii hlow x) (hall x)
  | case2 a b c d e f g h rest hhigh => exact ⟨[], rfl, by simp⟩
  | case3 rest hshort => exact ⟨[], rfl, by simp⟩

theorem length_afterSequence? {lead : UInt8} {tail rest : Bytes}
    (h : afterSequence? lead tail = some rest) : rest.length ≤ tail.length := by
  rw [afterSequence?] at h
  split_ifs at h
  · rw [Option.some.inj h]
  · simp only at h
    split_ifs at h
    rw [← Option.some.inj h, List.length_drop]
    omega

theorem illFormedWithin_eq_nil (fuel : Nat) (text : Bytes) (h : text.length ≤ fuel) :
    illFormedWithin fuel text = [] ↔ WellFormed text := by
  induction fuel generalizing text with
  | zero =>
    obtain rfl : text = [] := List.eq_nil_of_length_eq_zero (Nat.le_zero.1 h)
    exact ⟨fun _ => wellFormed_nil, fun _ => rfl⟩
  | succ fuel ih =>
    obtain ⟨run, htext, hrun⟩ := skipAscii_spec text
    have hiff : WellFormed text ↔ WellFormed (skipAscii text) := by
      conv_lhs => rw [htext]
      exact wellFormed_ascii_append hrun
    have hlen : (skipAscii text).length ≤ fuel + 1 := by
      have hle : (skipAscii text).length ≤ text.length := by
        conv_rhs => rw [htext, List.length_append]
        omega
      omega
    rw [hiff, illFormedWithin]
    cases hs : skipAscii text with
    | nil => exact ⟨fun _ => wellFormed_nil, fun _ => rfl⟩
    | cons lead tail =>
      rw [hs, List.length_cons] at hlen
      rw [wellFormed_cons_iff]
      cases ha : afterSequence? lead tail with
      | none => simp [ha]
      | some rest =>
        have hrest := length_afterSequence? ha
        simp only [ha, Option.some.injEq, exists_eq_left']
        exact ih rest (by omega)

/-- The check finds no fault exactly in well-formed texts. -/
theorem illFormed_eq_nil_iff (text : Bytes) : illFormed text = [] ↔ WellFormed text :=
  illFormedWithin_eq_nil text.length text le_rfl

end JsonCodec.Utf8
