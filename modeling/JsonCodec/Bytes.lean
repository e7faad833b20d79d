set_option autoImplicit false

namespace JsonCodec

abbrev Bytes := List UInt8

namespace Bytes

def ascii (text : String) : Bytes := text.toList.map Char.toUInt8

/-- What precedes the first zero byte: a zero byte ends a message. -/
def untilZero (text : Bytes) : Bytes := text.takeWhile (· ≠ 0)

end Bytes

namespace Byte

abbrev tab : UInt8 := 0x09
abbrev newline : UInt8 := 0x0A
abbrev carriageReturn : UInt8 := 0x0D
abbrev space : UInt8 := 0x20
abbrev quote : UInt8 := 0x22
abbrev plus : UInt8 := 0x2B
abbrev comma : UInt8 := 0x2C
abbrev minus : UInt8 := 0x2D
abbrev point : UInt8 := 0x2E
abbrev zero : UInt8 := 0x30
abbrev colon : UInt8 := 0x3A
abbrev openBracket : UInt8 := 0x5B
abbrev backslash : UInt8 := 0x5C
abbrev closeBracket : UInt8 := 0x5D
abbrev openBrace : UInt8 := 0x7B
abbrev closeBrace : UInt8 := 0x7D

def isSpace (b : UInt8) : Bool :=
  b == space || b == newline || b == carriageReturn || b == tab

def isDigit (b : UInt8) : Bool := 0x30 ≤ b && b ≤ 0x39

def digitValue (b : UInt8) : Nat := b.toNat - 0x30

def ofDigit (n : Nat) : UInt8 := (0x30 + n).toUInt8

def isExponentMark (b : UInt8) : Bool := b == 0x65 || b == 0x45

def isSign (b : UInt8) : Bool := b == plus || b == minus

def isControl (b : UInt8) : Bool := b < space

def hexValue? (b : UInt8) : Option Nat :=
  if isDigit b then some (digitValue b)
  else if 0x61 ≤ b && b ≤ 0x66 then some (b.toNat - 0x61 + 10)
  else if 0x41 ≤ b && b ≤ 0x46 then some (b.toNat - 0x41 + 10)
  else none

def ofHexDigit (n : Nat) : UInt8 := if n < 10 then ofDigit n else (0x61 + (n - 10)).toUInt8

def hex (b : UInt8) : Bytes := [ofHexDigit (b.toNat / 16), ofHexDigit (b.toNat % 16)]

end Byte
end JsonCodec
