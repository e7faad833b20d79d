import JsonCodec.Value.Basic

set_option autoImplicit false

namespace JsonCodec

structure SignedMagnitude where
  negative : Bool
  magnitude : BitVec 128
deriving DecidableEq, Repr, Inhabited

namespace SignedMagnitude

def same (a b : SignedMagnitude) : Bool :=
  a.magnitude == b.magnitude && (a.negative == b.negative || a.magnitude == 0)

def toSigned? (a : SignedMagnitude) (width : Nat) : Option (BitVec width) :=
  let limit := 1 <<< (width - 1)
  if a.negative then
    if a.magnitude.toNat ≤ limit then some ((0 - a.magnitude).setWidth width) else none
  else if a.magnitude.toNat < limit then some (a.magnitude.setWidth width) else none

def toUnsigned? (a : SignedMagnitude) (width : Nat) : Option (BitVec width) :=
  if (a.negative && a.magnitude != 0) || 1 <<< width ≤ a.magnitude.toNat then none
  else some (a.magnitude.setWidth width)

end SignedMagnitude

namespace Value

/-- The integer a value holds. Negation modulo 2^128 gives every magnitude exactly, that of the
minimum included. -/
def signedMagnitude? : Value → Option SignedMagnitude
  | int64 n =>
    let wide := n.toBitVec.signExtend 128
    some ⟨n < 0, if n < 0 then 0 - wide else wide⟩
  | uint64 n => some ⟨false, n.toBitVec.setWidth 128⟩
  | int128 n => some ⟨n.msb, if n.msb then 0 - n else n⟩
  | uint128 n => some ⟨false, n⟩
  | _ => none

def isIntegral (v : Value) : Bool := v.signedMagnitude?.isSome

def isNumber : Value → Bool
  | float _ => true
  | v => v.isIntegral

def toFloat? : Value → Option Binary64
  | float x => some x
  | int64 n => some (Binary64.ofInt n.toInt)
  | uint64 n => some (Binary64.ofInt n.toNat)
  | int128 n => some (Binary64.ofInt n.toInt)
  | uint128 n => some (Binary64.ofInt n.toNat)
  | _ => none

end Value
end JsonCodec
