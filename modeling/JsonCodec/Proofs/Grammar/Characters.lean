import Mathlib
import JsonCodec.Proofs.Grammar.Spelling

set_option autoImplicit false

/-!
# Literals, character by character

A literal holds one character after the other, and most characters can be spelled in more than one
way. Characters are Unicode scalar values; what they mean are their bytes in UTF-8.
-/
namespace JsonCodec

namespace Utf8

theorem isScalar_iff (cp : Nat) : IsScalar cp ↔ cp.isValidChar := by
  simp only [IsScalar, isSurrogate, Bool.and_eq_false_iff, decide_eq_false_iff_not, Nat.isValidChar]
  omega

theorem isScalar_toNat (c : Char) : IsScalar c.toNat := (isScalar_iff _).2 c.valid

theorem exists_char {cp : Nat} (h : IsScalar cp) : ∃ c : Char, c.toNat = cp :=
  ⟨Char.ofNatAux cp ((isScalar_iff cp).1 h), by simp [Char.ofNatAux, Char.toNat]⟩

theorem encode_toNat (c : Char) : encode c.toNat = String.utf8EncodeChar c := by
  obtain ⟨hc, -⟩ := isScalar_toNat c
  simp only [encode, continuation, String.utf8EncodeChar, Nat.toUInt8, Char.toNat_val,
    Nat.add_comm 0x80, Nat.add_comm 0xC0, Nat.add_comm 0xE0, Nat.add_comm 0xF0]
  split_ifs <;> try omega
  · rfl
  · rw [Nat.mod_eq_of_lt (show c.toNat / 64 < 0x20 by omega)]
  · rw [Nat.mod_eq_of_lt (show c.toNat / 4096 < 0x10 by omega)]
  · rw [Nat.mod_eq_of_lt (show c.toNat / 262144 < 0x08 by omega)]

def ofChars (cs : List Char) : Bytes := cs.flatMap String.utf8EncodeChar

theorem ofChars_append (cs ds : List Char) : ofChars (cs ++ ds) = ofChars cs ++ ofChars ds :=
  List.flatMap_append

theorem ofChars_cons (c : Char) (cs : List Char) :
    ofChars (c :: cs) = String.utf8EncodeChar c ++ ofChars cs := List.flatMap_cons

theorem ofChars_injective {cs ds : List Char} (h : ofChars cs = ofChars ds) : cs = ds := by
  have h : cs.utf8Encode = ds.utf8Encode := congrArg List.toByteArray h
  rw [← String.toByteArray_ofList, ← String.toByteArray_ofList, String.toByteArray_inj] at h
  exact String.ofList_injective h

theorem wellFormed_utf8EncodeChar (c : Char) : WellFormed (String.utf8EncodeChar c) := by
  rw [← encode_toNat]
  exact wellFormed_encode (isScalar_toNat c)

/-- A text is well formed if it is the bytes of some characters. -/
theorem wellFormed_iff_exists_chars (text : Bytes) :
    WellFormed text ↔ ∃ cs, text = ofChars cs := by
  constructor
  · rintro ⟨cps, hcps, rfl⟩
    induction cps with
    | nil => exact ⟨[], rfl⟩
    | cons cp cps ih =>
      obtain ⟨cs, hcs⟩ := ih fun n hn => hcps n (List.mem_cons_of_mem cp hn)
      obtain ⟨c, rfl⟩ := exists_char (hcps cp List.mem_cons_self)
      exact ⟨c :: cs, by rw [List.flatMap_cons, hcs, encode_toNat, ofChars_cons]⟩
  · rintro ⟨cs, rfl⟩
    induction cs with
    | nil => exact wellFormed_nil
    | cons c cs ih =>
      rw [ofChars_cons]
      exact (wellFormed_utf8EncodeChar c).append ih

end Utf8

namespace Grammar
open StringLiteral

def IsHexDigit (n : Nat) (b : UInt8) : Prop :=
  (Bytes.ascii "0123456789abcdef")[n]? = some b ∨ (Bytes.ascii "0123456789ABCDEF")[n]? = some b

inductive SpellsHex (n : Nat) : Bytes → Prop
  | digits {a b c d : UInt8} (ha : IsHexDigit (n / 0x1000) a)
    (hb : IsHexDigit (n / 0x100 % 0x10) b) (hc : IsHexDigit (n / 0x10 % 0x10) c)
    (hd : IsHexDigit (n % 0x10) d) : SpellsHex n [a, b, c, d]

def shortEscapes : List (Nat × UInt8) :=
  [(0x22, 0x22), (0x5C, 0x5C), (0x2F, 0x2F), (0x08, 0x62), (0x0C, 0x66), (0x0A, 0x6E), (0x0D, 0x72),
    (0x09, 0x74)]

def unitEscape (rest : Bytes) : Bytes := Byte.backslash :: 0x75 :: rest

/-- The ways to spell a character in a literal: as it is, by a letter, by its number, and by the two
numbers of a pair of surrogates. -/
inductive Spells (c : Char) : Bytes → Prop
  | raw (hcontrol : 0x20 ≤ c.toNat) (hquote : c.toNat ≠ 0x22) (hbackslash : c.toNat ≠ 0x5C) :
    Spells c (String.utf8EncodeChar c)
  | short {letter : UInt8} (h : (c.toNat, letter) ∈ shortEscapes) :
    Spells c [Byte.backslash, letter]
  | unit {digits : Bytes} (h : SpellsHex c.toNat digits) : Spells c (unitEscape digits)
  | pair {high low : Bytes} (h : 0x10000 ≤ c.toNat)
    (hhigh : SpellsHex (0xD800 + (c.toNat - 0x10000) / 0x400) high)
    (hlow : SpellsHex (0xDC00 + (c.toNat - 0x10000) % 0x400) low) :
    Spells c (unitEscape (high ++ unitEscape low))

/-- A literal, without its quotes, that spells a sequence of characters. -/
inductive Spelling : List Char → Bytes → Prop
  | nil : Spelling [] []
  | cons {c : Char} {cs : List Char} {text rest : Bytes} (h : Spells c text)
    (hrest : Spelling cs rest) : Spelling (c :: cs) (text ++ rest)

theorem Spelling.append {cs ds : List Char} {text rest : Bytes} (h : Spelling cs text)
    (h' : Spelling ds rest) : Spelling (cs ++ ds) (text ++ rest) := by
  induction h with
  | nil => exact h'
  | cons h _ ih =>
    rw [List.append_assoc]
    exact .cons h ih

inductive BadHex : Fault → Bytes → Prop
  | short {text : Bytes} (h : text.length < 4) : BadHex .incompleteUnicode text
  | digit {a b c d : UInt8} {rest : Bytes} (h : ∃ x ∈ [a, b, c, d], ∀ n, ¬ IsHexDigit n x) :
    BadHex .invalidHexDigit (a :: b :: c :: d :: rest)

/-- What no character of a literal starts with, and the fault that it is. -/
inductive Malformed : Fault → Bytes → Prop
  | control {b : UInt8} {rest : Bytes} (h : b < 0x20) : Malformed .controlByte (b :: rest)
  | letter {b : UInt8} {rest : Bytes} (hu : b ≠ 0x75) (h : ∀ n, (n, b) ∉ shortEscapes) :
    Malformed (.unknownEscape b) (Byte.backslash :: b :: rest)
  | unit {fault : Fault} {text : Bytes} (h : BadHex fault text) : Malformed fault (unitEscape text)
  | low {low : Nat} {digits rest : Bytes} (h : SpellsHex low digits)
    (hlow : 0xDC00 ≤ low ∧ low ≤ 0xDFFF) :
    Malformed .unexpectedLowSurrogate (unitEscape (digits ++ rest))
  | lone {high : Nat} {digits rest : Bytes} (h : SpellsHex high digits)
    (hhigh : 0xD800 ≤ high ∧ high ≤ 0xDBFF) (hrest : ∀ tail, rest ≠ unitEscape tail) :
    Malformed .missingLowSurrogate (unitEscape (digits ++ rest))
  | unpaired {high n : Nat} {digits digits' rest : Bytes} (h : SpellsHex high digits)
    (hhigh : 0xD800 ≤ high ∧ high ≤ 0xDBFF) (h' : SpellsHex n digits')
    (hn : n < 0xDC00 ∨ 0xDFFF < n) :
    Malformed .invalidLowSurrogate (unitEscape (digits ++ unitEscape (digits' ++ rest)))
  | second {fault : Fault} {high : Nat} {digits text : Bytes} (h : SpellsHex high digits)
    (hhigh : 0xD800 ≤ high ∧ high ≤ 0xDBFF) (h' : BadHex fault text) :
    Malformed fault (unitEscape (digits ++ unitEscape text))

theorem hexValue?_eq_some_iff {b : UInt8} {n : Nat} :
    Byte.hexValue? b = some n ↔ IsHexDigit n b := by
  have hto : ∀ b, ∀ n ∈ Byte.hexValue? b, IsHexDigit n b := by
    unfold IsHexDigit
    decide +kernel
  have hfrom (digits : Bytes) (h : digits = Bytes.ascii "0123456789abcdef" ∨
      digits = Bytes.ascii "0123456789ABCDEF") :
      ∀ e ∈ digits.zipIdx, Byte.hexValue? e.1 = some e.2 := by
    rcases h with rfl | rfl <;> decide
  refine ⟨hto b n, fun h => ?_⟩
  rcases h with h | h
  · exact hfrom _ (.inl rfl) (b, n) (List.mk_mem_zipIdx_iff_getElem?.2 h)
  · exact hfrom _ (.inr rfl) (b, n) (List.mk_mem_zipIdx_iff_getElem?.2 h)

theorem spellsHex_iff {n : Nat} {digits : Bytes} :
    SpellsHex n digits ↔ ∃ g : HexGroup, g.text = digits ∧ g.value = n := by
  constructor
  · rintro ⟨ha, hb, hc, hd⟩
    rw [← hexValue?_eq_some_iff] at ha hb hc hd
    refine ⟨⟨_, _, _, _, by simp [ha, hb, hc, hd]⟩, rfl, ?_⟩
    simp only [HexGroup.value, HexGroup.digitValue, ha, hb, hc, hd, Option.getD_some]
    omega
  · rintro ⟨g, rfl, rfl⟩
    have hdigit : ∀ x ∈ g.text, IsHexDigit (HexGroup.digitValue x) x := by
      intro x hx
      obtain ⟨n, hn⟩ := Option.isSome_iff_exists.1 (g.isHex x hx)
      rw [← hexValue?_eq_some_iff, hn, HexGroup.digitValue, hn, Option.getD_some]
    have ha := digitValue_lt g.a
    have hb := digitValue_lt g.b
    have hc := digitValue_lt g.c
    have hd := digitValue_lt g.d
    refine .digits ?_ ?_ ?_ ?_
    · convert hdigit g.a (by simp [HexGroup.text]) using 1
      rw [HexGroup.value]
      omega
    · convert hdigit g.b (by simp [HexGroup.text]) using 1
      rw [HexGroup.value]
      omega
    · convert hdigit g.c (by simp [HexGroup.text]) using 1
      rw [HexGroup.value]
      omega
    · convert hdigit g.d (by simp [HexGroup.text]) using 1
      rw [HexGroup.value]
      omega

theorem escaped?_eq_some_iff {letter b : UInt8} :
    escaped? letter = some b ↔ (b.toNat, letter) ∈ shortEscapes := by
  have hfrom : ∀ e ∈ shortEscapes, escaped? e.2 = some e.1.toUInt8 := by decide
  constructor
  · intro h
    unfold escaped? at h
    split at h <;> cases h <;> decide
  · intro h
    rw [hfrom _ h]
    simp

theorem SpellsHex.ascii {n : Nat} {digits : Bytes} (h : SpellsHex n digits) :
    ∀ x ∈ digits, x < 0x80 := by
  obtain ⟨g, rfl, -⟩ := spellsHex_iff.1 h
  exact g.ascii

theorem unitEscape_ascii {digits : Bytes} (h : ∀ x ∈ digits, x < 0x80) :
    ∀ x ∈ unitEscape digits, x < 0x80 := by
  rw [unitEscape, List.forall_mem_cons, List.forall_mem_cons]
  exact ⟨by decide, by decide, h⟩

theorem Spells.wellFormed {c : Char} {text : Bytes} (h : Spells c text) :
    Utf8.WellFormed text := by
  cases h with
  | raw => exact Utf8.wellFormed_utf8EncodeChar c
  | @short letter h =>
    have hletter : ∀ e ∈ shortEscapes, e.2 < 0x80 := by decide
    refine Utf8.wellFormed_ascii ?_
    rw [List.forall_mem_cons, List.forall_mem_singleton]
    exact ⟨by decide, hletter _ h⟩
  | unit h => exact Utf8.wellFormed_ascii (unitEscape_ascii h.ascii)
  | pair _ hhigh hlow =>
    refine Utf8.wellFormed_ascii (unitEscape_ascii ?_)
    rw [List.forall_mem_append]
    exact ⟨hhigh.ascii, unitEscape_ascii hlow.ascii⟩

theorem Spelling.wellFormed {cs : List Char} {text : Bytes} (h : Spelling cs text) :
    Utf8.WellFormed text := by
  induction h with
  | nil => exact Utf8.wellFormed_nil
  | cons h _ ih => exact h.wellFormed.append ih

theorem isPlain_utf8EncodeChar_iff (c : Char) :
    (∀ b ∈ String.utf8EncodeChar c, isPlain b = true) ↔
      0x20 ≤ c.toNat ∧ c.toNat ≠ 0x22 ∧ c.toNat ≠ 0x5C := by
  rw [← Utf8.encode_toNat]
  rcases Nat.lt_or_ge c.toNat 0x80 with hlow | hhigh
  · have hall : ∀ n < 0x80, isPlain n.toUInt8 = true ↔ 0x20 ≤ n ∧ n ≠ 0x22 ∧ n ≠ 0x5C := by
      decide
    rw [Utf8.encode, if_pos hlow, List.forall_mem_singleton, hall c.toNat hlow]
  · have hplain : ∀ b : UInt8, 0x80 ≤ b → isPlain b = true := by decide +kernel
    refine iff_of_true (fun b hb => hplain b (Utf8.le_of_mem_encode hhigh hb)) ?_
    omega

theorem spelling_of_plain {cs : List Char} (h : ∀ b ∈ Utf8.ofChars cs, isPlain b = true) :
    Spelling cs (Utf8.ofChars cs) := by
  induction cs with
  | nil => exact .nil
  | cons c cs ih =>
    rw [Utf8.ofChars_cons] at h ⊢
    rw [List.forall_mem_append, isPlain_utf8EncodeChar_iff] at h
    obtain ⟨⟨hcontrol, hquote, hbackslash⟩, hrest⟩ := h
    exact .cons (.raw hcontrol hquote hbackslash) (ih hrest)

theorem exists_spelling_of_plain {run : Bytes} (hplain : ∀ b ∈ run, isPlain b = true)
    (h : Utf8.WellFormed run) : ∃ cs, Spelling cs run ∧ Utf8.ofChars cs = run := by
  obtain ⟨cs, rfl⟩ := (Utf8.wellFormed_iff_exists_chars run).1 h
  exact ⟨cs, spelling_of_plain hplain, rfl⟩

theorem exists_spelling_cons {run text tail more : Bytes} {c : Char}
    (hplain : ∀ b ∈ run, isPlain b = true) (hrun : Utf8.WellFormed run) (hc : Spells c text)
    (h : ∃ cs, Spelling cs tail ∧ Utf8.ofChars cs = more) :
    ∃ cs, Spelling cs (run ++ (text ++ tail)) ∧
      Utf8.ofChars cs = run ++ (String.utf8EncodeChar c ++ more) := by
  obtain ⟨cs, hcs, hrun⟩ := exists_spelling_of_plain hplain hrun
  obtain ⟨ds, hds, rfl⟩ := h
  exact ⟨cs ++ c :: ds, hcs.append (.cons hc hds), by
    rw [Utf8.ofChars_append, hrun, Utf8.ofChars_cons]⟩

theorem spells_unit {g : HexGroup} (hhigh : isHighSurrogate g.value = false)
    (hlow : isLowSurrogate g.value = false) :
    ∃ c, Spells c (Piece.unit g).text ∧ String.utf8EncodeChar c = Utf8.encode g.value := by
  obtain ⟨c, hc⟩ := Utf8.exists_char (isScalar_of_lt g.value_lt hhigh hlow)
  exact ⟨c, .unit (spellsHex_iff.2 ⟨g, rfl, hc.symm⟩), by rw [← hc, Utf8.encode_toNat]⟩

theorem isHighSurrogate_iff (n : Nat) : isHighSurrogate n = true ↔ 0xD800 ≤ n ∧ n ≤ 0xDBFF := by
  rw [isHighSurrogate, Bool.and_eq_true, decide_eq_true_eq, decide_eq_true_eq]

theorem isLowSurrogate_iff (n : Nat) : isLowSurrogate n = true ↔ 0xDC00 ≤ n ∧ n ≤ 0xDFFF := by
  rw [isLowSurrogate, Bool.and_eq_true, decide_eq_true_eq, decide_eq_true_eq]

/-- A pair of surrogates holds twenty bits. -/
theorem joinSurrogates_parts {high low : Nat} (hhigh : isHighSurrogate high = true)
    (hlow : isLowSurrogate low = true) :
    0x10000 ≤ joinSurrogates high low ∧
      high = 0xD800 + (joinSurrogates high low - 0x10000) / 0x400 ∧
      low = 0xDC00 + (joinSurrogates high low - 0x10000) % 0x400 := by
  rw [isHighSurrogate_iff] at hhigh
  rw [isLowSurrogate_iff] at hlow
  have hjoin : joinSurrogates high low =
    0x10000 + (high - 0xD800) * 1024 + (low - 0xDC00) := rfl
  refine ⟨?_, ?_, ?_⟩ <;> omega

theorem joinSurrogates_of_parts {n : Nat} (h : 0x10000 ≤ n) (hmax : n ≤ 0x10FFFF) :
    isHighSurrogate (0xD800 + (n - 0x10000) / 0x400) = true ∧
      isLowSurrogate (0xDC00 + (n - 0x10000) % 0x400) = true ∧
      joinSurrogates (0xD800 + (n - 0x10000) / 0x400) (0xDC00 + (n - 0x10000) % 0x400) = n := by
  rw [isHighSurrogate_iff, isLowSurrogate_iff]
  have hjoin (high low : Nat) : joinSurrogates high low =
    0x10000 + (high - 0xD800) * 1024 + (low - 0xDC00) := rfl
  rw [hjoin]
  omega

theorem surrogates_of_isScalar {n : Nat} (h : Utf8.IsScalar n) :
    isHighSurrogate n = false ∧ isLowSurrogate n = false := by
  rw [Utf8.isScalar_iff, Nat.isValidChar] at h
  rw [← Bool.not_eq_true, ← Bool.not_eq_true, isHighSurrogate_iff, isLowSurrogate_iff]
  omega

theorem spells_pair {high low : HexGroup} (hhigh : isHighSurrogate high.value = true)
    (hlow : isLowSurrogate low.value = true) :
    ∃ c, Spells c ((Piece.unit high).text ++ (Piece.unit low).text) ∧
      String.utf8EncodeChar c = Utf8.encode (joinSurrogates high.value low.value) := by
  obtain ⟨c, hc⟩ := Utf8.exists_char (isScalar_joinSurrogates hhigh hlow)
  obtain ⟨hle, hfirst, hsecond⟩ := joinSurrogates_parts hhigh hlow
  rw [← hc] at hle hfirst hsecond
  have hpair := Spells.pair hle (spellsHex_iff.2 ⟨high, rfl, hfirst⟩)
    (spellsHex_iff.2 ⟨low, rfl, hsecond⟩)
  exact ⟨c, hpair, by rw [← hc, Utf8.encode_toNat]⟩

/-- U+1F600 as a pair of surrogates, in digits of either case. -/
example : Spells (Char.ofNat 0x1F600)
    (unitEscape (Bytes.ascii "D83d" ++ unitEscape (Bytes.ascii "dE00"))) :=
  .pair (by decide) (.digits (.inr rfl) (.inl rfl) (.inl rfl) (.inl rfl))
    (.digits (.inl rfl) (.inr rfl) (.inl rfl) (.inl rfl))

namespace Piece

/-- The induction takes escapes one by one; plain bytes wait in front of the rest until an escape
cuts them off. -/
theorem exists_spelling_append (run : Bytes) : ∀ ps : List Piece,
    (∀ b ∈ run, isPlain b = true) → Paired false ps → Utf8.WellFormed (run ++ join ps) →
    ∃ cs, Spelling cs (run ++ join ps) ∧ Utf8.ofChars cs = run ++ spelled none ps
  | [], hplain, _, h => by
    rw [join, List.flatMap_nil, List.append_nil] at h ⊢
    rw [spelled, List.append_nil]
    exact exists_spelling_of_plain hplain h
  | .plain b hb :: rest, hplain, hp, h => by
    have hrun : ∀ x ∈ run ++ [b], isPlain x = true := by
      rw [List.forall_mem_append, List.forall_mem_singleton]
      exact ⟨hplain, hb⟩
    have hrest := exists_spelling_append (run ++ [b]) rest hrun hp (by simpa [join, text] using h)
    simpa [join, text, spelled] using hrest
  | .short letter b he :: rest, hplain, hp, h => by
    obtain ⟨hletter, hb⟩ := short_ascii he
    have hascii : ∀ x ∈ [Byte.backslash, letter], x < 0x80 := by
      simpa using ⟨by decide, hletter⟩
    obtain ⟨hrun, hjoin⟩ := (Utf8.wellFormed_append_ascii_iff hascii).1 h
    obtain ⟨c, hc⟩ := Utf8.exists_char (Utf8.isScalar_ascii hb)
    have hshort : Spells c [Byte.backslash, letter] := .short (by rwa [hc, ← escaped?_eq_some_iff])
    have hrest := exists_spelling_append [] rest (List.forall_mem_nil _) hp hjoin
    have hspelling := exists_spelling_cons hplain hrun hshort hrest
    rwa [← Utf8.encode_toNat, hc, Utf8.encode_ascii hb] at hspelling
  | [.unit g], hplain, hp, h => by
    obtain ⟨hlow, hhigh⟩ := hp
    obtain ⟨hrun, -⟩ := (Utf8.wellFormed_append_ascii_iff (unit_ascii g)).1 h
    obtain ⟨c, hc, hencode⟩ := spells_unit hhigh hlow
    rw [spelled, hhigh, ← hencode]
    exact exists_spelling_cons hplain hrun hc ⟨[], .nil, rfl⟩
  | .unit g :: p :: rest, hplain, hp, h => by
    obtain ⟨hlow, hp⟩ := hp
    obtain ⟨hrun, hjoin⟩ := (Utf8.wellFormed_append_ascii_iff (unit_ascii g)).1 h
    rw [spelled]
    cases hhigh : isHighSurrogate g.value with
    | false =>
      rw [hhigh] at hp
      obtain ⟨c, hc, hencode⟩ := spells_unit hhigh hlow
      have hrest := exists_spelling_append [] (p :: rest) (List.forall_mem_nil _) hp hjoin
      rw [if_neg Bool.false_ne_true, ← hencode]
      exact exists_spelling_cons hplain hrun hc hrest
    | true =>
      rw [hhigh] at hp
      cases p with
      | plain b hb => cases hp
      | short letter b he => cases hp
      | unit g' =>
        obtain ⟨hlow', hp⟩ := hp
        obtain ⟨-, hjoin⟩ := (Utf8.wellFormed_append_ascii_iff (unit_ascii g')).1
          (show Utf8.WellFormed ([] ++ _) from hjoin)
        obtain ⟨c, hc, hencode⟩ := spells_pair hhigh hlow'
        have hrest := exists_spelling_append [] rest (List.forall_mem_nil _) hp hjoin
        have hspelling := exists_spelling_cons hplain hrun hc hrest
        rw [List.append_assoc] at hspelling
        rw [if_pos rfl, spelled, ← hencode]
        exact hspelling

/-- Where surrogates are paired and the bytes are well formed, pieces spell characters. -/
theorem exists_spelling {ps : List Piece} (hp : Paired false ps)
    (h : Utf8.WellFormed (join ps)) :
    ∃ cs, Spelling cs (join ps) ∧ Utf8.ofChars cs = spelled none ps :=
  exists_spelling_append [] ps (List.forall_mem_nil _) hp h

theorem wellFormed_spelled {ps : List Piece} (hp : Paired false ps)
    (h : Utf8.WellFormed (join ps)) : Utf8.WellFormed (spelled none ps) := by
  obtain ⟨cs, -, hspelled⟩ := exists_spelling hp h
  exact (Utf8.wellFormed_iff_exists_chars _).2 ⟨cs, hspelled.symm⟩

end Piece

end Grammar
end JsonCodec
