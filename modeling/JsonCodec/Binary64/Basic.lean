set_option autoImplicit false

/-!
# Double-precision numbers

A finite number is a whole multiple of 2^-1074, the least positive one; `units` counts them.
Rounding, comparing, multiplying and dividing are exact arithmetic on those counts.
-/
namespace JsonCodec

/-- A double-precision number, held as its 64 bits: sign, eleven of exponent, 52 of fraction. -/
structure Binary64 where
  bits : UInt64
deriving DecidableEq, Repr, Inhabited

namespace Binary64

def signBit : Nat := 0x8000000000000000

def leadingOne : Nat := 0x10000000000000

def magnitude (x : Binary64) : Nat := x.bits.toNat % signBit

def isNegative (x : Binary64) : Bool := signBit ≤ x.bits.toNat

/-- The magnitude bits of the infinities; those of finite numbers are below, of NaNs above. -/
def infiniteMagnitude : Nat := 2047 * leadingOne

def isNaN (x : Binary64) : Bool := infiniteMagnitude < x.magnitude

def isInfinite (x : Binary64) : Bool := x.magnitude == infiniteMagnitude

def isFinite (x : Binary64) : Bool := x.magnitude < infiniteMagnitude

def isZero (x : Binary64) : Bool := x.magnitude == 0

def ofMagnitude (negative : Bool) (magnitude : Nat) : Binary64 :=
  ⟨((if negative then signBit else 0) + magnitude).toUInt64⟩

def zero (negative : Bool) : Binary64 := ofMagnitude negative 0

def infinity (negative : Bool) : Binary64 := ofMagnitude negative infiniteMagnitude

def nan : Binary64 := ofMagnitude false (infiniteMagnitude + leadingOne / 2)

def shift (x : Binary64) : Nat := x.magnitude / leadingOne - 1

def significand (x : Binary64) : Nat :=
  if x.magnitude < leadingOne then x.magnitude else leadingOne + x.magnitude % leadingOne

/-- The magnitude of a finite number, in units of 2^-1074. -/
def units (x : Binary64) : Nat := x.significand <<< x.shift

def one : Nat := 1 <<< 1074

def neg (x : Binary64) : Binary64 := ofMagnitude (!x.isNegative) x.magnitude

def roundHalfEven (num den : Nat) : Nat :=
  let floor := num / den
  let twice := 2 * (num % den)
  if den < twice || (twice == den && floor % 2 == 1) then floor + 1 else floor

/-- The number nearest to `num / den`, the even one of two; infinite if that is beyond all finite
ones. A significand that is rounded up to 2^53 carries into the exponent by itself. -/
def ofRatio (negative : Bool) (num den : Nat) : Binary64 :=
  let scaled := num * one
  let shift := Nat.log2 (scaled / den) - 52
  let magnitude := shift * leadingOne + roundHalfEven scaled (den <<< shift)
  ofMagnitude negative (min magnitude infiniteMagnitude)

def ofInt (n : Int) : Binary64 := ofRatio (n < 0) n.natAbs 1

def ofNat (n : Nat) : Binary64 := ofRatio false n 1

def mul (x y : Binary64) : Binary64 :=
  ofRatio (x.isNegative != y.isNegative) (x.units * y.units) (one * one)

def div (x y : Binary64) : Binary64 :=
  ofRatio (x.isNegative != y.isNegative) x.units y.units

def equal (x y : Binary64) : Bool :=
  !x.isNaN && !y.isNaN && x.magnitude == y.magnitude &&
    (x.isNegative == y.isNegative || x.isZero)

def whole? (x : Binary64) : Option Nat :=
  if x.units % one = 0 then some (x.units / one) else none

end Binary64
end JsonCodec
