import Mathlib
import JsonCodec.Proofs.Binary64.Length
import JsonCodec.Proofs.Decode.LoneNumeral

set_option autoImplicit false

namespace JsonCodec.Binary64
open Grammar

def Marked (text : Bytes) : Prop := Byte.point ∈ text ∨ 0x65 ∈ text

theorem marked_whole (n : Nat) : Marked (Decimal.ofNat n ++ [Byte.point, Byte.zero]) :=
  .inl (by simp)

theorem Marked.markFloat {text : Bytes} (h : Marked text) : Marked (markFloat text) := by
  unfold Binary64.markFloat
  split_ifs
  · exact h
  · exact h.imp (List.mem_append_left _) (List.mem_append_left _)

theorem marked_withPoint (digits : Bytes) (places : Nat) : Marked (withPoint digits places) := by
  unfold withPoint
  split_ifs
  · exact .inl (by simp)
  · exact .inl (by simp)

theorem marked_scientificText (d : Scientific) : Marked (scientificText d) := by
  refine .inr (List.mem_append_right _ ?_)
  rw [exponentText]
  exact List.mem_cons_self

theorem marked_shortestText (x : Binary64) : Marked (markFloat (shortestText x)) := by
  rw [shortestText]
  split_ifs
  · cases (shortest x).exponent with
    | ofNat e =>
      cases e with
      | zero =>
        change Marked (markFloat (Decimal.ofNat (shortest x).digits))
        rw [markFloat_ofNat]
        exact marked_whole _
      | succ e =>
        change Marked (markFloat (Decimal.ofNat (x.units / one)))
        rw [markFloat_ofNat]
        exact marked_whole _
    | negSucc e => exact (marked_withPoint _ _).markFloat
  · exact (marked_scientificText _).markFloat

theorem marked_magnitudeText (x : Binary64) : Marked (magnitudeText x) := by
  rcases magnitudeText_cases x with ⟨n, -, -, htext⟩ | ⟨-, htext⟩
  · rw [htext]
    exact marked_whole n
  · rw [htext]
    exact marked_shortestText x

theorem marked_text (x : Binary64) : Marked x.text := by
  have h := marked_magnitudeText x.unsigned
  rw [text_eq, withSign]
  split_ifs
  · exact h.imp (List.mem_cons_of_mem _) (List.mem_cons_of_mem _)
  · exact h

/-- Only its sign gives a numeral a minus at its start. -/
theorem head?_numeral (n : Grammar.Numeral) :
    n.text.head? = some Byte.minus ↔ n.negative = true := by
  have hfirst := digit_ne_minus (n.whole.isDigit n.whole.first List.mem_cons_self)
  rw [Grammar.Numeral.text, Grammar.Numeral.signText]
  cases n.negative with
  | true => simp
  | false => simpa [Grammar.Numeral.unsignedText, Digits.text] using hfirst

structure ReadAs (text : Bytes) (x : Binary64) : Prop where
  read : Binary64.read text = .ok x
  value : ∀ big, Value.ofNumeral? big text = some (.float x)
  whole : ∀ o cache, Decode.whole o (.bytes text) cache = (.ok { value := .float x }, cache)
  shortcut : ∃ l, NumberLiteral.literal .whole text = .ok l [] ∧ l.isFloat = true ∧
    (l.isExact = true → l.value? = some (.float x))

theorem readAs_numeral {n : Grammar.Numeral} {x : Binary64} (hi : n.isIntegral = false)
    (hx : nearest n.negative n.magnitude = x) (hf : x.isFinite = true) : ReadAs n.text x := by
  subst hx
  have hrange := magnitude_lt_of_isFinite hf
  have hread : Binary64.read n.text = .ok (nearest n.negative n.magnitude) := by
    rw [read_text, if_pos hrange]
  have hvalue (big : Option BigInteger) :
      Value.ofNumeral? big n.text = some (.float (nearest n.negative n.magnitude)) := by
    rw [Value.ofNumeral?_float big hi, Value.floatValue?_text, if_pos hrange]
  have hfloat : (NumberLiteral.gathered n).isFloat = true := by
    simp [NumberLiteral.gathered, hi]
  refine ⟨hread, hvalue, fun o cache => ?_, NumberLiteral.gathered n,
    NumberLiteral.literal_text n, hfloat, fun he => ?_⟩
  · rw [Decode.whole_numeral, hvalue]
  · obtain ⟨y, hy, hsame⟩ := (NumberLiteral.shortcut_gathered hfloat he).double
    rw [hy, Except.ok.inj (hsame.symm.trans hread)]

theorem ReadsBack.readAs {text : Bytes} {x : Binary64} (h : ReadsBack text x.unsigned)
    (hx : x.isFinite = true) : ReadAs (withSign x.isNegative text) x := by
  obtain ⟨n, htext, hi, -, hn⟩ := h.signed
  rw [← htext]
  exact readAs_numeral hi hn hx

theorem length_magnitudeText_le {x : Binary64} (hx : x.isFinite = true)
    (hs : x.isNegative = false) : (magnitudeText x).length ≤ 26 := by
  rcases magnitudeText_cases x with ⟨n, -, hle, htext⟩ | ⟨h0, htext⟩
  · have hlen := Decimal.length_ofNat_le (k := 16) (by decide)
      (hle.trans_lt (by decide : exactLimit < 10 ^ 16))
    rw [htext, List.length_append, List.length_cons, List.length_singleton]
    omega
  · have hlen := length_shortestText_le hx hs h0
    rw [htext, markFloat]
    split_ifs
    · omega
    · rw [List.length_append, List.length_cons, List.length_singleton]
      omega

/-- What the text of a finite double is. -/
structure FloatText (x : Binary64) : Prop where
  numeral : ∃ n : Grammar.Numeral, n.text = x.text ∧ n.isIntegral = false
  length_le : x.text.length ≤ 32
  marked : Byte.point ∈ x.text ∨ 0x65 ∈ x.text
  minus : x.text.head? = some Byte.minus ↔ x.isNegative = true
  readAs : ReadAs x.text x
  exact : ∀ n, x.whole? = some n →
    ReadAs (withSign x.isNegative (Decimal.ofNat n ++ [Byte.point, Byte.zero])) x
  shortest : x.isZero = false → (shortestText x.unsigned).length ≤ 24 ∧
    ReadAs (withSign x.isNegative (markFloat (shortestText x.unsigned))) x

theorem floatText {x : Binary64} (hx : x.isFinite = true) : FloatText x := by
  have hfinite := isFinite_unsigned hx
  have hsign := x.isNegative_unsigned
  obtain ⟨n, htext, hi, hneg, hn⟩ := exists_text hx
  refine ⟨⟨n, htext, hi⟩, ?_, marked_text x, ?_, ?_, fun m hm => ?_, fun h0 => ?_⟩
  · have hlen := length_magnitudeText_le hfinite hsign
    rw [text_eq, withSign]
    split_ifs
    · rw [List.length_cons]
      omega
    · omega
  · rw [← htext, head?_numeral, hneg]
  · rw [← htext]
    exact readAs_numeral hi hn hx
  · have hwhole : x.unsigned.whole? = some m := by
      rwa [whole?, units_eq, magnitude_unsigned, ← units_eq, ← whole?]
    obtain ⟨hmod, rfl⟩ := whole?_eq_some hwhole
    exact (readsBack_exact hfinite hsign hmod).readAs hx
  · have hzero : x.unsigned.magnitude ≠ 0 := by
      rw [magnitude_unsigned]
      simpa [isZero] using h0
    exact ⟨length_shortestText_le hfinite hsign hzero,
      (readsBack_shortestText hfinite hsign hzero).readAs hx⟩

/-- The least subnormal number, negative. -/
theorem floatText_leastSubnormal :
    (⟨0x8000000000000001⟩ : Binary64).isFinite = true ∧
      (⟨0x8000000000000001⟩ : Binary64).text = Bytes.ascii "-5e-324" ∧
      FloatText ⟨0x8000000000000001⟩ :=
  have h : (⟨0x8000000000000001⟩ : Binary64).isFinite = true := by decide
  ⟨h, by decide +kernel, floatText h⟩

end JsonCodec.Binary64
