import Mathlib
import JsonCodec.Decode.NumberLiteral
import JsonCodec.Decode.StringLiteral
import JsonCodec.Proofs.Binary64.Nearest

set_option autoImplicit false

/-!
# Tokens as they are written

Blanks, words, numerals and string literals with all the bytes that were chosen for them. What is
no token cannot be built; conditions that go beyond the shape of a token are stated apart.
-/
namespace JsonCodec.Grammar

structure Blanks where
  text : Bytes
  isSpace : ∀ b ∈ text, Byte.isSpace b = true

def Blanks.none : Blanks := ⟨[], by simp⟩

/-- The words that stand for a value. The last three belong to the extended dialect. -/
inductive Word where
  | true
  | false
  | null
  | nan
  | infinity
  | negativeInfinity
deriving DecidableEq

namespace Word

def text : Word → Bytes
  | true => Bytes.ascii "true"
  | false => Bytes.ascii "false"
  | null => Bytes.ascii "null"
  | nan => Bytes.ascii "NaN"
  | infinity => Bytes.ascii "Infinity"
  | negativeInfinity => Bytes.ascii "-Infinity"

def value : Word → Value
  | true => .bool Bool.true
  | false => .bool Bool.false
  | null => .null
  | nan => .float .nan
  | infinity => .float (.infinity Bool.false)
  | negativeInfinity => .float (.infinity Bool.true)

def isNonFinite : Word → Bool
  | true | false | null => Bool.false
  | nan | infinity | negativeInfinity => Bool.true

end Word

structure Digits where
  first : UInt8
  more : Bytes
  isDigit : ∀ b ∈ first :: more, Byte.isDigit b = true

namespace Digits

def text (d : Digits) : Bytes := d.first :: d.more

def textOf : Option Digits → Bytes
  | none => []
  | some d => d.text

def pointTextOf : Option Digits → Bytes
  | none => []
  | some d => Byte.point :: d.text

end Digits

structure Exponent where
  mark : UInt8
  sign : Option UInt8
  digits : Digits
  isMark : Byte.isExponentMark mark = true
  isSign : ∀ b ∈ sign, Byte.isSign b = true

namespace Exponent

def text (e : Exponent) : Bytes := e.mark :: (e.sign.toList ++ e.digits.text)

def value (e : Exponent) : Int :=
  if e.sign = some Byte.minus then -(Decimal.value e.digits.text : Int)
  else Decimal.value e.digits.text

def textOf : Option Exponent → Bytes
  | none => []
  | some e => e.text

def valueOf : Option Exponent → Int
  | none => 0
  | some e => e.value

end Exponent

/-- A numeral. Before the point a zero stands alone. -/
structure Numeral where
  negative : Bool
  whole : Digits
  fraction : Option Digits
  exponent : Option Exponent
  zero_alone : whole.first = Byte.zero → whole.more = []

namespace Numeral

def signText (n : Numeral) : Bytes := if n.negative then [Byte.minus] else []

def unsignedText (n : Numeral) : Bytes :=
  n.whole.text ++ Digits.pointTextOf n.fraction ++ Exponent.textOf n.exponent

def text (n : Numeral) : Bytes := n.signText ++ n.unsignedText

def isIntegral (n : Numeral) : Bool := n.fraction.isNone && n.exponent.isNone

def digits (n : Numeral) : Bytes := n.whole.text ++ Digits.textOf n.fraction

def power (n : Numeral) : Int :=
  Exponent.valueOf n.exponent - (Digits.textOf n.fraction).length

def magnitude (n : Numeral) : ℚ := (Decimal.value n.digits : ℚ) * (10 : ℚ) ^ n.power

def IsWide (n : Numeral) : Prop :=
  n.isIntegral = true ∧
    if n.negative then n.magnitude ≤ (2 : ℚ) ^ 127 else n.magnitude < (2 : ℚ) ^ 128

/-- A number that some value can hold, at least approximately. -/
def InRange (n : Numeral) : Prop := ¬ n.IsWide → n.magnitude < Binary64.overflowLimit

end Numeral

def NotAhead (p : UInt8 → Bool) (rest : Bytes) : Prop := ∀ b ∈ rest.head?, p b = false

def NoExponentAhead (extent : Extent) (rest : Bytes) : Prop :=
  ∀ b tail, rest = b :: tail →
    (Byte.isExponentMark b && NumberLiteral.exponentFollows extent tail) = false

def Numeral.Ends (extent : Extent) (n : Numeral) (rest : Bytes) : Prop :=
  match n.fraction, n.exponent with
  | _, some _ => NotAhead Byte.isDigit rest
  | some _, none => NotAhead Byte.isDigit rest ∧ NoExponentAhead extent rest
  | none, none =>
    (n.whole.first ≠ Byte.zero → NotAhead Byte.isDigit rest) ∧
      NotAhead (· == Byte.point) rest ∧ NoExponentAhead extent rest

structure HexGroup where
  a : UInt8
  b : UInt8
  c : UInt8
  d : UInt8
  isHex : ∀ x ∈ [a, b, c, d], (Byte.hexValue? x).isSome = true

namespace HexGroup

def text (g : HexGroup) : Bytes := [g.a, g.b, g.c, g.d]

def digitValue (x : UInt8) : Nat := (Byte.hexValue? x).getD 0

def value (g : HexGroup) : Nat :=
  ((digitValue g.a * 16 + digitValue g.b) * 16 + digitValue g.c) * 16 + digitValue g.d

end HexGroup

/-- What a string literal is made of: bytes that stand for themselves, a backslash with a letter
that stands for a byte, and code units in hexadecimal. -/
inductive Piece where
  | plain (b : UInt8) (isPlain : StringLiteral.isPlain b = true)
  | short (letter b : UInt8) (isEscaped : StringLiteral.escaped? letter = some b)
  | unit (g : HexGroup)

namespace Piece

def text : Piece → Bytes
  | plain b _ => [b]
  | short letter _ _ => [Byte.backslash, letter]
  | unit g => Byte.backslash :: 0x75 :: g.text

def join (pieces : List Piece) : Bytes := pieces.flatMap text

/-- Every surrogate is a high one right before a low one; `waiting` tells that the piece before was
a high one. -/
def Paired : Bool → List Piece → Prop
  | waiting, [] => waiting = false
  | true, .unit g :: rest => StringLiteral.isLowSurrogate g.value = true ∧ Paired false rest
  | true, _ :: _ => False
  | false, .unit g :: rest =>
    StringLiteral.isLowSurrogate g.value = false ∧
      Paired (StringLiteral.isHighSurrogate g.value) rest
  | false, _ :: rest => Paired false rest

def spelled : Option Nat → List Piece → Bytes
  | _, [] => []
  | _, .plain b _ :: rest => b :: spelled none rest
  | _, .short _ b _ :: rest => b :: spelled none rest
  | none, .unit g :: rest =>
    if StringLiteral.isHighSurrogate g.value then spelled (some g.value) rest
    else Utf8.encode g.value ++ spelled none rest
  | some high, .unit g :: rest =>
    Utf8.encode (StringLiteral.joinSurrogates high g.value) ++ spelled none rest

end Piece

/-- What stands for a value that holds no other values. -/
inductive Token where
  | word (w : Word)
  | numeral (n : Numeral)
  | string (pieces : List Piece)

namespace Token

def text : Token → Bytes
  | word w => w.text
  | numeral n => n.text
  | string pieces => Byte.quote :: (Piece.join pieces ++ [Byte.quote])

/-- The value of a token. Numerals that no value can hold are null here. -/
def value (big : Option BigInteger) : Token → Value
  | word w => w.value
  | numeral n => (Value.ofNumeral? big n.text).getD .null
  | string pieces => .string (Piece.spelled none pieces)

def InDialect (d : Dialect) : Token → Prop
  | word w => w.isNonFinite = true → d.hasNonFinite = true
  | _ => True

def SurrogatesPaired : Token → Prop
  | string pieces => Piece.Paired false pieces
  | _ => True

def InRange : Token → Prop
  | numeral n => n.InRange
  | _ => True

def Ends (extent : Extent) (rest : Bytes) : Token → Prop
  | numeral n => n.Ends extent rest
  | _ => True

/-- What a token has to be to have a value under some options. -/
def Readable (o : DecodeOptions) : Token → Prop
  | word w => w.isNonFinite = true → o.dialect.hasNonFinite = true
  | numeral n => (Value.ofNumeral? o.bigInteger n.text).isSome = true
  | string pieces => Piece.Paired false pieces

end Token

theorem takeWhile_append_notAhead {p : UInt8 → Bool} {run rest : Bytes}
    (hd : ∀ b ∈ run, p b = true) (hr : NotAhead p rest) : (run ++ rest).takeWhile p = run := by
  rw [List.takeWhile_append_of_pos hd]
  cases rest with
  | nil => simp
  | cons b rest => simp [hr b rfl]

theorem dropWhile_append_notAhead {p : UInt8 → Bool} {run rest : Bytes}
    (hd : ∀ b ∈ run, p b = true) (hr : NotAhead p rest) : (run ++ rest).dropWhile p = rest := by
  rw [List.dropWhile_append_of_pos hd]
  cases rest with
  | nil => rfl
  | cons b rest => simp [hr b rfl]

theorem notAhead_dropWhile (p : UInt8 → Bool) (text : Bytes) : NotAhead p (text.dropWhile p) := by
  intro b hb
  have h := List.head?_dropWhile_not p text
  rw [Option.mem_def] at hb
  simpa [hb] using h

theorem exists_digits {b : UInt8} (hb : Byte.isDigit b = true) (tail : Bytes) :
    ∃ d : Digits, d.first = b ∧ b :: tail = d.text ++ (b :: tail).dropWhile Byte.isDigit := by
  refine ⟨⟨b, tail.takeWhile Byte.isDigit, ?_⟩, rfl, ?_⟩
  · intro c hc
    rcases List.mem_cons.1 hc with rfl | hc
    · exact hb
    · exact List.mem_takeWhile_imp hc
  · simp [Digits.text, hb]

theorem isSpace_cases {b : UInt8} (h : Byte.isSpace b = true) :
    b = Byte.space ∨ b = Byte.newline ∨ b = Byte.carriageReturn ∨ b = Byte.tab := by
  simpa only [Byte.isSpace, Bool.or_eq_true, beq_iff_eq, or_assoc] using h

theorem isExponentMark_cases {b : UInt8} (h : Byte.isExponentMark b = true) :
    b = 0x65 ∨ b = 0x45 := by
  simpa only [Byte.isExponentMark, Bool.or_eq_true, beq_iff_eq] using h

theorem isSign_cases {b : UInt8} (h : Byte.isSign b = true) : b = Byte.plus ∨ b = Byte.minus := by
  simpa only [Byte.isSign, Bool.or_eq_true, beq_iff_eq] using h

theorem isSpace_ascii {b : UInt8} (h : Byte.isSpace b = true) : b < 0x80 := by
  rcases isSpace_cases h with rfl | rfl | rfl | rfl <;> decide

theorem isDigit_ascii {b : UInt8} (h : Byte.isDigit b = true) : b < 0x80 := by
  simp only [Byte.isDigit, Bool.and_eq_true, decide_eq_true_eq] at h
  exact UInt8.lt_of_le_of_lt h.2 (by decide)

theorem Numeral.mem_cases (n : Numeral) {b : UInt8} (hb : b ∈ n.text) :
    Byte.isDigit b = true ∨ Byte.isSign b = true ∨ Byte.isExponentMark b = true ∨
      b = Byte.point := by
  simp only [Numeral.text, Numeral.unsignedText, List.mem_append] at hb
  rcases hb with hb | (hb | hb) | hb
  · rw [Numeral.signText] at hb
    split_ifs at hb
    · rw [List.mem_singleton.1 hb]
      exact .inr (.inl rfl)
    · cases hb
  · exact .inl (n.whole.isDigit b hb)
  · cases hf : n.fraction with
    | none => simp [hf, Digits.pointTextOf] at hb
    | some d =>
      rw [hf, Digits.pointTextOf] at hb
      rcases List.mem_cons.1 hb with rfl | hb
      · exact .inr (.inr (.inr rfl))
      · exact .inl (d.isDigit b hb)
  · cases he : n.exponent with
    | none => simp [he, Exponent.textOf] at hb
    | some e =>
      rw [he, Exponent.textOf, Exponent.text] at hb
      rcases List.mem_cons.1 hb with rfl | hb
      · exact .inr (.inr (.inl e.isMark))
      · rcases List.mem_append.1 hb with hb | hb
        · exact .inr (.inl (e.isSign b (by simpa using hb)))
        · exact .inl (e.digits.isDigit b hb)

theorem mark_plain {b : UInt8} (h : Byte.isExponentMark b = true) :
    Byte.isDigit b = false ∧ (b == Byte.point) = false := by
  rcases isExponentMark_cases h with rfl | rfl <;> decide

theorem notAhead_exponent {p : UInt8 → Bool} (exponent : Option Exponent) (rest : Bytes)
    (hp : ∀ b, Byte.isExponentMark b = true → p b = false)
    (hr : exponent = none → NotAhead p rest) : NotAhead p (Exponent.textOf exponent ++ rest) := by
  cases exponent with
  | none => exact hr rfl
  | some e =>
    intro b hb
    obtain rfl : e.mark = b := by simpa [Exponent.textOf, Exponent.text] using hb
    exact hp _ e.isMark

theorem notAhead_textOf (exponent : Option Exponent) :
    NotAhead Byte.isDigit (Exponent.textOf exponent) := by
  simpa using notAhead_exponent exponent [] (fun _ hb => (mark_plain hb).1) fun _ => by
    simp [NotAhead]

theorem digit_ne_minus {b : UInt8} (h : Byte.isDigit b = true) : ¬ b = Byte.minus := by
  rintro rfl
  exact absurd h (by decide)

theorem notAhead_point (fraction : Option Digits) (rest : Bytes)
    (hr : fraction = none → NotAhead Byte.isDigit rest) :
    NotAhead Byte.isDigit (Digits.pointTextOf fraction ++ rest) := by
  cases fraction with
  | none => exact hr rfl
  | some d =>
    intro b hb
    obtain rfl : Byte.point = b := by simpa [Digits.pointTextOf] using hb
    decide

end JsonCodec.Grammar
