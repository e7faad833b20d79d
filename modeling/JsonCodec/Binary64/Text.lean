import JsonCodec.Binary64.Shortest

set_option autoImplicit false

namespace JsonCodec.Binary64

def exactLimit : Nat := 0x20000000000000

/-- Whether a decimal is written without an exponent. With few trailing or leading zeros to add,
positional text is no longer than an exponent would be; a lone digit saves its point. -/
def isPositional (d : Scientific) : Bool :=
  let length : Int := (Decimal.ofNat d.digits).length
  let (lower, upper) := if length = 1 then (-3, 4) else (-(length + 3), 5)
  lower ≤ d.exponent && d.exponent ≤ upper

def withPoint (digits : Bytes) (places : Nat) : Bytes :=
  if places < digits.length then
    digits.take (digits.length - places) ++ Byte.point :: digits.drop (digits.length - places)
  else Byte.zero :: Byte.point :: (List.replicate (places - digits.length) Byte.zero ++ digits)

def exponentText (e : Int) : Bytes :=
  let digits := Decimal.ofNat e.natAbs
  let padded := if digits.length < 2 then Byte.zero :: digits else digits
  0x65 :: (if e < 0 then Byte.minus else Byte.plus) :: padded

def scientificText (d : Scientific) : Bytes :=
  let digits := Decimal.ofNat d.digits
  let fraction := digits.drop 1
  digits.take 1 ++ (if fraction.isEmpty then [] else Byte.point :: fraction) ++
    exponentText (d.exponent + fraction.length)

/-- The shortest text of a positive double. Digits that end left of the point are written as the
exact whole number. -/
def shortestText (x : Binary64) : Bytes :=
  let d := shortest x
  if isPositional d then
    match d.exponent with
    | .ofNat 0 => Decimal.ofNat d.digits
    | .ofNat _ => Decimal.ofNat (x.units / one)
    | .negSucc e => withPoint (Decimal.ofNat d.digits) (e + 1)
  else scientificText d

def isFloatMark (b : UInt8) : Bool := b == Byte.point || Byte.isExponentMark b

def markFloat (text : Bytes) : Bytes :=
  if text.any isFloatMark then text else text ++ [Byte.point, Byte.zero]

/-- The text of a finite magnitude: small whole numbers as integers, all others shortest, and both
marked as floats. -/
def magnitudeText (x : Binary64) : Bytes :=
  match x.whole? with
  | some n =>
    if n ≤ exactLimit then Decimal.ofWord n.toUInt64 ++ [Byte.point, Byte.zero]
    else markFloat (shortestText x)
  | none => markFloat (shortestText x)

def text (x : Binary64) : Bytes :=
  if x.isNegative then Byte.minus :: magnitudeText x.neg else magnitudeText x

end JsonCodec.Binary64
