import JsonCodec.Binary64.Basic
import JsonCodec.Decimal

set_option autoImplicit false

namespace JsonCodec.Binary64

/-- The number nearest to `digits * 10 ^ exponent`. Exponents that leave no doubt, since 2^3 is
less than 10, are answered without computing the power. -/
def ofDecimal (negative : Bool) (digits : Nat) (exponent : Int) : Binary64 :=
  if digits = 0 then zero negative
  else
    match exponent with
    | .ofNat e =>
      if 1024 ≤ Nat.log2 digits + 3 * e then infinity negative
      else ofRatio negative (digits * Decimal.powerOfTen e) 1
    | .negSucc e =>
      if Nat.log2 digits + 1077 ≤ 3 * (e + 1) then zero negative
      else ofRatio negative digits (Decimal.powerOfTen (e + 1))

inductive Recognised where
  | decimal (negative : Bool) (digits : Nat) (exponent : Int)
  | named (x : Binary64)
deriving DecidableEq, Repr

def exponentPart (text : Bytes) : Int × Bytes :=
  match text with
  | [] => (0, [])
  | mark :: afterMark =>
    if !Byte.isExponentMark mark then (0, text)
    else
      let (negative, rest) := match afterMark with
        | [] => (false, [])
        | sign :: rest =>
          if Byte.isSign sign then (sign == Byte.minus, rest) else (false, sign :: rest)
      let digits := rest.takeWhile Byte.isDigit
      if digits.isEmpty then (0, text)
      else
        let magnitude : Int := Decimal.value digits
        (if negative then -magnitude else magnitude, rest.dropWhile Byte.isDigit)

def digitsPart (negative : Bool) (text : Bytes) : Option (Recognised × Bytes) :=
  let before := text.takeWhile Byte.isDigit
  let rest := text.dropWhile Byte.isDigit
  let (after, rest) := match rest with
    | 0x2E :: more => (more.takeWhile Byte.isDigit, more.dropWhile Byte.isDigit)
    | _ => ([], rest)
  if before.isEmpty && after.isEmpty then none
  else
    let (exponent, rest) := exponentPart rest
    some (.decimal negative (Decimal.value (before ++ after)) (exponent - after.length), rest)

def lowerCase (b : UInt8) : UInt8 := if 0x41 ≤ b && b ≤ 0x5A then b + 0x20 else b

def afterWord? (word text : Bytes) : Option Bytes :=
  if (text.take word.length).map lowerCase == word then some (text.drop word.length) else none

def isWordByte (b : UInt8) : Bool :=
  Byte.isDigit b || (0x61 ≤ lowerCase b && lowerCase b ≤ 0x7A) || b == 0x5F

def afterTag (text : Bytes) : Bytes :=
  match text with
  | 0x28 :: rest =>
    match rest.dropWhile isWordByte with
    | 0x29 :: more => more
    | _ => text
  | _ => text

def namedPart (negative : Bool) (text : Bytes) : Option (Recognised × Bytes) :=
  match afterWord? (Bytes.ascii "nan") text with
  | some rest => some (.named (if negative then nan.neg else nan), afterTag rest)
  | none =>
    match afterWord? (Bytes.ascii "inf") text with
    | some rest =>
      some (.named (infinity negative), (afterWord? (Bytes.ascii "inity") rest).getD rest)
    | none => none

/-- The longest floating-point numeral that a text starts with, and what follows it. -/
def recognise (text : Bytes) : Option (Recognised × Bytes) :=
  let (negative, text) := match text with
    | 0x2D :: rest => (true, rest)
    | _ => (false, text)
  (digitsPart negative text).orElse fun _ => namedPart negative text

inductive ReadError where
  | outOfRange
  | invalid
deriving DecidableEq, Repr

/-- Reads a double. A magnitude beyond the largest finite double is out of range; a text that does
not start with a numeral, or goes on after it, is invalid. Digits too small for any double but zero
are read as a zero of their sign without regard to what follows them. -/
def read (text : Bytes) : Except ReadError Binary64 :=
  match recognise text with
  | none => .error .invalid
  | some (.named x, rest) => if rest.isEmpty then .ok x else .error .invalid
  | some (.decimal negative digits exponent, rest) =>
    let x := ofDecimal negative digits exponent
    if x.isInfinite then .error .outOfRange
    else if digits ≠ 0 && x.isZero then .ok x
    else if rest.isEmpty then .ok x
    else .error .invalid

end JsonCodec.Binary64
