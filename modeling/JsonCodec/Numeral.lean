import JsonCodec.Binary64.Reading
import JsonCodec.Value.Basic

set_option autoImplicit false

/-!
# Values of numerals

A numeral without fraction and exponent becomes the narrowest integer that holds it; every other
one the nearest float. Integers wider than 128 bits go to a builder of the caller's, if there is
one.
-/
namespace JsonCodec

/-- Builds the value of an integer numeral of more than 128 bits from its text and nothing else. A
builder that throws, keeps a state of its own or uses the key cache is outside the model. -/
abbrev BigInteger := Bytes → Value

structure Numeral where
  negative : Bool
  integral : Bool
  digits : Bytes
deriving DecidableEq, Repr

namespace Numeral

def integerDigits? : Bytes → Option (Bytes × Bytes)
  | [] => none
  | b :: rest =>
    if !Byte.isDigit b then none
    else if b == Byte.zero then some ([b], rest)
    else some (b :: rest.takeWhile Byte.isDigit, rest.dropWhile Byte.isDigit)

def afterDigits? : Bytes → Option Bytes
  | [] => none
  | b :: rest => if Byte.isDigit b then some (rest.dropWhile Byte.isDigit) else none

def skipSign : Bytes → Bytes
  | [] => []
  | b :: rest => if Byte.isSign b then rest else b :: rest

def afterFraction? : Bytes → Option (Bool × Bytes)
  | [] => some (false, [])
  | b :: rest =>
    if b == Byte.point then (afterDigits? rest).map (true, ·) else some (false, b :: rest)

def afterExponent? : Bytes → Option (Bool × Bytes)
  | [] => some (false, [])
  | b :: rest =>
    if Byte.isExponentMark b then (afterDigits? (skipSign rest)).map (true, ·)
    else some (false, b :: rest)

def ofText? (text : Bytes) : Option Numeral := do
  let (negative, rest) := match text with
    | 0x2D :: rest => (true, rest)
    | _ => (false, text)
  let (digits, rest) ← integerDigits? rest
  let (fraction, rest) ← afterFraction? rest
  let (exponent, rest) ← afterExponent? rest
  if rest.isEmpty then some ⟨negative, !(fraction || exponent), digits⟩ else none

def mostWide : Nat := 0xFFFFFFFFFFFFFFFFFFFFFFFFFFFFFFFF

def wideSign : Nat := 0x80000000000000000000000000000000

def pushWide (n : BitVec 128) (b : UInt8) : Option (BitVec 128) :=
  let digit := Byte.digitValue b
  if mostWide / 10 < n.toNat || (n.toNat == mostWide / 10 && mostWide % 10 < digit) then none
  else some (n * 10 + BitVec.ofNat 128 digit)

def wide? (digits : Bytes) : Option (BitVec 128) := digits.foldlM pushWide 0

def word (digits : Bytes) : UInt64 :=
  digits.foldl (fun n b => n * 10 + (Byte.digitValue b).toUInt64) 0

def ofWord? (negative : Bool) (magnitude : UInt64) : Option Value :=
  if negative then
    if magnitude ≤ 0x8000000000000000 then some (.int64 (0 - magnitude).toInt64) else none
  else if magnitude < 0x8000000000000000 then some (.int64 magnitude.toInt64)
  else some (.uint64 magnitude)

/-- The integer in 64 bits. Of twenty digits only a positive number can fit. -/
def narrowValue? (negative : Bool) (digits : Bytes) : Option Value :=
  if digits.length ≤ 19 then ofWord? negative (word digits)
  else if digits.length = 20 && !negative then
    match wide? digits with
    | some n => if n.toNat < Decimal.wordLimit then some (.uint64 n.toNat.toUInt64) else none
    | none => none
  else none

def wideValue? (negative : Bool) (digits : Bytes) : Option Value :=
  match wide? digits with
  | none => none
  | some n =>
    if negative then if n.toNat ≤ wideSign then some (.int128 (0 - n)) else none
    else if n.toNat < wideSign then some (.int128 n)
    else some (.uint128 n)

def floatValue? (text : Bytes) : Option Value :=
  match Binary64.read text with
  | .ok x => some (.float x)
  | .error _ => none

/-- The integer, or else what the caller builds, or else the nearest float. -/
def integralValue? (big : Option BigInteger) (n : Numeral) (text : Bytes) : Option Value :=
  match narrowValue? n.negative n.digits with
  | some v => some v
  | none =>
    match wideValue? n.negative n.digits with
    | some v => some v
    | none =>
      match big with
      | some build => some (build text)
      | none => floatValue? text

end Numeral

def Value.ofNumeral? (big : Option BigInteger) (text : Bytes) : Option Value :=
  match Numeral.ofText? text with
  | none => none
  | some n => if n.integral then Numeral.integralValue? big n text else Numeral.floatValue? text

end JsonCodec
