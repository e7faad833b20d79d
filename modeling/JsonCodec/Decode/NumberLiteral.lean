import JsonCodec.Decode.Options
import JsonCodec.Decode.Scanner

set_option autoImplicit false

/-!
# Number literals

The digits of a literal are gathered in a word as long as they fit. If they did, an integer is at
hand, and so is a float whose digits and power of ten are both exact doubles. All others are read
again from their text.
-/
namespace JsonCodec

structure DigitWord where
  value : UInt64
  /-- Some digit is missing in `value`. -/
  overflow : Bool
  count : Nat
  fraction : Nat
deriving DecidableEq, Repr, Inhabited

namespace DigitWord

def empty : DigitWord := ⟨0, false, 0, 0⟩

def most : UInt64 := 0xFFFFFFFFFFFFFFFF

def maxCount : Nat := 19

/-- Takes the digits before the point, up to the first that does not fit. -/
def takeInteger (w : DigitWord) : Bytes → DigitWord × Bytes
  | [] => (w, [])
  | b :: rest =>
    if !Byte.isDigit b then (w, b :: rest)
    else
      let digit := (b - Byte.zero).toUInt64
      if most / 10 < w.value || (w.value == most / 10 && most % 10 < digit) then
        ({ w with overflow := true }, rest.dropWhile Byte.isDigit)
      else takeInteger { w with value := w.value * 10 + digit, count := w.count + 1 } rest

def takeFraction (w : DigitWord) : Bytes → DigitWord × Bytes
  | [] => (w, [])
  | b :: rest =>
    if !Byte.isDigit b then (w, b :: rest)
    else if w.count < maxCount then
      takeFraction
        { w with
          value := w.value * 10 + (b - Byte.zero).toUInt64
          count := w.count + 1
          fraction := w.fraction + 1 }
        rest
    else takeFraction { w with overflow := true } rest

end DigitWord

structure NumberLiteral where
  negative : Bool
  isFloat : Bool
  digits : DigitWord
  exponent : Int
deriving DecidableEq, Repr, Inhabited

namespace NumberLiteral

/-- Exponents are held at this: it is out of reach of exact powers of ten. -/
def maxExponent : Nat := 400

def exactPower : Nat := 22

def takeExponent (e : Nat) : Bytes → Nat × Bytes
  | [] => (e, [])
  | b :: rest =>
    if Byte.isDigit b then takeExponent (min (e * 10 + Byte.digitValue b) maxExponent) rest
    else (e, b :: rest)

def needDigit (otherwise : Fault) : Scanner Unit := do
  match ← get with
  | [] => throw .unexpectedEnd
  | b :: _ => if Byte.isDigit b then return else throw otherwise

def take {α : Type} (f : Bytes → α × Bytes) : Scanner α := modifyGet f

def integerPart : Scanner DigitWord := do
  match ← get with
  | 0x30 :: rest =>
    set rest
    return DigitWord.empty
  | _ => take DigitWord.empty.takeInteger

def fractionPart (digits : DigitWord) : Scanner (Bool × DigitWord) := do
  match ← get with
  | 0x2E :: rest =>
    set rest
    needDigit .missingFraction
    return (true, ← take digits.takeFraction)
  | _ => return (false, digits)

/-- Whether the mark of an exponent is part of the literal. In a text that goes on as the caller
likes it is only if a digit follows, or the text ends before it can. -/
def exponentFollows (extent : Extent) (afterMark : Bytes) : Bool :=
  match extent with
  | .whole => true
  | .leading =>
    match Numeral.skipSign afterMark with
    | [] => true
    | b :: _ => Byte.isDigit b

def minusPart : Scanner Bool := do
  match ← get with
  | 0x2D :: rest =>
    set rest
    return true
  | _ => return false

def signPart : Scanner Bool := do
  match ← get with
  | [] => return false
  | b :: rest =>
    if Byte.isSign b then
      set rest
      return b == Byte.minus
    else return false

def exponentPart (extent : Extent) : Scanner (Option Int) := do
  match ← get with
  | [] => return none
  | b :: rest =>
    if Byte.isExponentMark b && exponentFollows extent rest then
      set rest
      let negative ← signPart
      needDigit .missingExponent
      let e ← take (takeExponent 0)
      return some (if negative then -(e : Int) else e)
    else return none

def unsigned (extent : Extent) (negative : Bool) : Scanner NumberLiteral := do
  let digits ← integerPart
  let (hasFraction, digits) ← fractionPart digits
  let exponent ← exponentPart extent
  return ⟨negative, hasFraction || exponent.isSome, digits, exponent.getD 0⟩

def scale (n : UInt64) : Int → Binary64
  | .ofNat e => (Binary64.ofNat n.toNat).mul (Binary64.ofNat (Decimal.powerOfTen e))
  | .negSucc e => (Binary64.ofNat n.toNat).div (Binary64.ofNat (Decimal.powerOfTen (e + 1)))

def power (l : NumberLiteral) : Int := l.exponent - l.digits.fraction

def isExact (l : NumberLiteral) : Bool :=
  !l.digits.overflow && l.digits.value ≤ 0x20000000000000 && l.power.natAbs ≤ exactPower

/-- The value of a literal whose gathered digits are enough for it. -/
def value? (l : NumberLiteral) : Option Value :=
  if l.isFloat then
    if l.isExact then
      let x := scale l.digits.value l.power
      some (.float (if l.negative then x.neg else x))
    else none
  else if l.digits.overflow then none
  else Numeral.ofWord? l.negative l.digits.value

def infinityWord : Bytes := Bytes.ascii "Infinity"

def value (o : DecodeOptions) (extent : Extent) : Scanner Value := do
  let start ← get
  let negative ← minusPart
  match ← get with
  | [] => throw .unexpectedEnd
  | b :: _ =>
    if negative && o.dialect.hasNonFinite && b == 0x49 then
      Scanner.word infinityWord
      return .float (.infinity true)
    else if !Byte.isDigit b then throw .invalidNumber
    else
      let literal ← unsigned extent negative
      match literal.value? with
      | some v => return v
      | none =>
        let rest ← get
        match Value.ofNumeral? o.bigInteger (start.take (start.length - rest.length)) with
        | some v => return v
        | none =>
          set start
          throw .numberOutOfRange

end NumberLiteral
end JsonCodec
