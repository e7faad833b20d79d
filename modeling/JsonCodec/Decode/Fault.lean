import JsonCodec.Decimal
import JsonCodec.ErrorCode
import JsonCodec.Location

set_option autoImplicit false

namespace JsonCodec

inductive Container where
  | array
  | object
deriving DecidableEq, Repr, Inhabited

def Container.close : Container → UInt8
  | array => Byte.closeBracket
  | object => Byte.closeBrace

inductive Fault where
  | invalidUtf8
  | missingInput
  | unexpectedEnd
  | unexpectedByte (b : UInt8)
  | expectedWord (word : Bytes)
  | expectedByte (wanted actual : UInt8)
  | expectedKey
  | expectedMore (container : Container)
  | tooDeep
  | trailingContent
  | unterminatedString
  | unterminatedEscape
  | controlByte
  | unknownEscape (b : UInt8)
  | incompleteUnicode
  | invalidHexDigit
  | missingLowSurrogate
  | invalidLowSurrogate
  | unexpectedLowSurrogate
  | invalidNumber
  | missingFraction
  | missingExponent
  | numberOutOfRange
deriving DecidableEq, Repr, Inhabited

namespace Fault

def code : Fault → ErrorCode
  | invalidUtf8 => .invalidUtf8
  | missingInput => .invalidInput
  | unexpectedEnd | unterminatedString | unterminatedEscape => .unterminatedValue
  | unexpectedByte _ | expectedWord _ | expectedByte _ _ | expectedKey | expectedMore _
  | controlByte => .unexpectedToken
  | tooDeep => .depthExceeded
  | trailingContent => .trailingData
  | unknownEscape _ | incompleteUnicode | invalidHexDigit | missingLowSurrogate
  | invalidLowSurrogate | unexpectedLowSurrogate => .invalidEscape
  | invalidNumber | missingFraction | missingExponent | numberOutOfRange => .invalidNumber

def quoted (text : Bytes) : Bytes := 0x27 :: text ++ [0x27]

def text : Fault → Bytes
  | invalidUtf8 => Bytes.ascii "invalid UTF-8 sequence"
  | missingInput => Bytes.ascii "null input buffer with non-zero size"
  | unexpectedEnd => Bytes.ascii "unexpected end of input"
  | unexpectedByte b =>
    if b < 0x20 || 0x7F ≤ b then Bytes.ascii "unexpected byte 0x" ++ Byte.hex b
    else Bytes.ascii "unexpected character " ++ quoted [b]
  | expectedWord word => Bytes.ascii "expected " ++ quoted word
  | expectedByte wanted actual =>
    Bytes.ascii "expected " ++ quoted [wanted] ++ Bytes.ascii ", got " ++ quoted [actual]
  | expectedKey => Bytes.ascii "expected string key in object"
  | expectedMore .array => Bytes.ascii "expected ',' or ']' in array"
  | expectedMore .object =>
    Bytes.ascii "expected ',' or " ++ quoted [Byte.closeBrace] ++ Bytes.ascii " in object"
  | tooDeep => Bytes.ascii "maximum nesting depth exceeded"
  | trailingContent => Bytes.ascii "unexpected trailing content"
  | unterminatedString => Bytes.ascii "unterminated string"
  | unterminatedEscape => Bytes.ascii "unterminated escape sequence"
  | controlByte => Bytes.ascii "control character in string"
  | unknownEscape b => Bytes.ascii "invalid escape " ++ quoted [Byte.backslash, b]
  | incompleteUnicode => Bytes.ascii "incomplete unicode escape"
  | invalidHexDigit => Bytes.ascii "invalid hex digit in unicode escape"
  | missingLowSurrogate => Bytes.ascii "missing low surrogate"
  | invalidLowSurrogate => Bytes.ascii "invalid low surrogate"
  | unexpectedLowSurrogate => Bytes.ascii "unexpected low surrogate"
  | invalidNumber => Bytes.ascii "invalid number"
  | missingFraction => Bytes.ascii "expected digit after decimal point"
  | missingExponent => Bytes.ascii "expected digit in exponent"
  | numberOutOfRange => Bytes.ascii "number out of range"

end Fault

structure DecodeError where
  fault : Fault
  location : Location
deriving DecidableEq, Repr, Inhabited

namespace DecodeError

def code (e : DecodeError) : ErrorCode := e.fault.code

def text (e : DecodeError) : Bytes :=
  Bytes.ascii "JSON decode error at line " ++ Decimal.ofNat e.location.line ++
    Bytes.ascii ", column " ++ Decimal.ofNat e.location.column ++
    Bytes.ascii " (byte " ++ Decimal.ofNat e.location.offset ++ Bytes.ascii "): " ++ e.fault.text

def message (e : DecodeError) : Bytes := e.code.report e.text

end DecodeError
end JsonCodec
