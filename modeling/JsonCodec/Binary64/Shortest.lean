import JsonCodec.Binary64.Reading

set_option autoImplicit false

namespace JsonCodec.Binary64

structure Scientific where
  digits : Nat
  exponent : Int
deriving DecidableEq, Repr, Inhabited

def digitCount (n : Nat) : Nat := if n = 0 then 0 else (Nat.toDigits 10 n).length

def leadingExponent (num den : Nat) : Int :=
  if den ≤ num then (digitCount (num / den) : Int) - 1 else -(digitCount ((den - 1) / num) : Int)

def scaleDown (num den : Nat) (exponent : Int) : Nat × Nat :=
  match exponent with
  | .ofNat e => (num, den * Decimal.powerOfTen e)
  | .negSucc e => (num * Decimal.powerOfTen (e + 1), den)

def readsBack (x : Binary64) (d : Scientific) : Bool := ofDecimal false d.digits d.exponent == x

/-- The one of two neighbouring multiples of `10 ^ exponent` around a positive double that reads
back; the nearer, or the even one, if both do. -/
def neighbour? (x : Binary64) (exponent : Int) : Option Scientific :=
  let (num, den) := scaleDown x.units one exponent
  let below : Scientific := ⟨num / den, exponent⟩
  let above : Scientific := ⟨num / den + 1, exponent⟩
  match readsBack x below, readsBack x above with
  | true, true => some (if roundHalfEven num den = below.digits then below else above)
  | true, false => some below
  | false, true => some above
  | false, false => none

def Scientific.trim : Nat → Scientific → Scientific
  | 0, d => d
  | fuel + 1, d => if d.digits % 10 = 0 then trim fuel ⟨d.digits / 10, d.exponent + 1⟩ else d

/-- The shortest decimal of a positive double: seventeen digits are always enough. Rounding up may
carry into a new leading digit, so trailing zeros are dropped. -/
def shortest (x : Binary64) : Scientific :=
  let leading := leadingExponent x.units one
  let grids := (List.range 17).map fun places : Nat => leading - places
  ((grids.findSome? (neighbour? x)).getD ⟨0, 0⟩).trim 17

end JsonCodec.Binary64
