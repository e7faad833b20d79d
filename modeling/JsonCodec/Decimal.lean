import JsonCodec.Bytes

set_option autoImplicit false

namespace JsonCodec.Decimal

def ofNat (n : Nat) : Bytes := (Nat.toDigits 10 n).map Char.toUInt8

def value (digits : Bytes) : Nat := digits.foldl (fun n b => 10 * n + Byte.digitValue b) 0

def powerOfTen (n : Nat) : Nat := Nat.pow 10 n

/-- The powers of ten that a first guess of the digit count is corrected against; the guess 0 is
never corrected. -/
def threshold (guess : Nat) : Nat := if guess = 0 then 0 else powerOfTen guess

/-- How many digits a word has, guessed from its bit length: 1233 / 4096 is just above log 2. -/
def wordDigits (n : UInt64) : Nat :=
  let bits := Nat.log2 (n ||| 1).toNat + 1
  let guess := (bits * 1233) >>> 12
  if n.toNat < threshold guess then guess else guess + 1

/-- The lowest `places` digits of `n`, in front of `tail`, two digits a step. -/
def fill : Nat → Nat → Bytes → Bytes
  | 0, _, tail => tail
  | 1, n, tail => Byte.ofDigit (n % 10) :: tail
  | places + 2, n, tail =>
    fill places (n / 100) (Byte.ofDigit (n % 100 / 10) :: Byte.ofDigit (n % 10) :: tail)

def ofWord (n : UInt64) : Bytes := fill (wordDigits n) n.toNat []

def lowerLimb (n : UInt64) : Bytes := fill 19 n.toNat []

def limb : Nat := powerOfTen 19

def wordLimit : Nat := 0x10000000000000000

def ofWide (n : BitVec 128) : Bytes :=
  let whole := n.toNat
  if whole < wordLimit then ofWord whole.toUInt64
  else
    let low := lowerLimb (whole % limb).toUInt64
    let upper := whole / limb
    if upper < wordLimit then ofWord upper.toUInt64 ++ low
    else ofWord (upper / limb).toUInt64 ++ lowerLimb (upper % limb).toUInt64 ++ low

/-- A signed word. The magnitude of a negative one is its negation modulo 2^64. -/
def ofSignedWord (n : Int64) : Bytes :=
  if n < 0 then Byte.minus :: ofWord (0 - n.toUInt64) else ofWord n.toUInt64

def ofSignedWide (n : BitVec 128) : Bytes :=
  if n.msb then Byte.minus :: ofWide (0 - n) else ofWide n

end JsonCodec.Decimal
