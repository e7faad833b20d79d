import JsonCodec.Bytes

set_option autoImplicit false

namespace JsonCodec.StringLiteral

/-- A byte as it stands in a literal: control bytes by their short escape if they have one, quote
and backslash behind a backslash, all others as they are. -/
def spell (b : UInt8) : Bytes :=
  if Byte.isControl b then
    if b = 0x08 then [Byte.backslash, 0x62]
    else if b = Byte.tab then [Byte.backslash, 0x74]
    else if b = Byte.newline then [Byte.backslash, 0x6E]
    else if b = 0x0C then [Byte.backslash, 0x66]
    else if b = Byte.carriageReturn then [Byte.backslash, 0x72]
    else [Byte.backslash, 0x75, Byte.zero, Byte.zero] ++ Byte.hex b
  else if b = Byte.quote || b = Byte.backslash then [Byte.backslash, b]
  else [b]

def write (text : Bytes) : Bytes := Byte.quote :: (text.flatMap spell ++ [Byte.quote])

end JsonCodec.StringLiteral
