import JsonCodec.Bytes

set_option autoImplicit false

namespace JsonCodec

inductive ErrorCode where
  | success
  | invalidUtf8
  | unexpectedToken
  | trailingData
  | unterminatedValue
  | invalidNumber
  | invalidEscape
  | depthExceeded
  | invalidInput
  | typeMismatch
  | outOfRange
  | nonFiniteFloat
deriving DecidableEq, Repr, Inhabited

namespace ErrorCode

def category : Bytes := Bytes.ascii "mjson"

def number : ErrorCode → Int
  | success => 0
  | invalidUtf8 => 1
  | unexpectedToken => 2
  | trailingData => 3
  | unterminatedValue => 4
  | invalidNumber => 5
  | invalidEscape => 6
  | depthExceeded => 7
  | invalidInput => 8
  | typeMismatch => 50
  | outOfRange => 51
  | nonFiniteFloat => 80

def all : List ErrorCode :=
  [success, invalidUtf8, unexpectedToken, trailingData, unterminatedValue, invalidNumber,
    invalidEscape, depthExceeded, invalidInput, typeMismatch, outOfRange, nonFiniteFloat]

def ofNumber? (n : Int) : Option ErrorCode := all.find? (·.number == n)

def message : ErrorCode → Bytes
  | success => Bytes.ascii "success"
  | invalidUtf8 => Bytes.ascii "invalid UTF-8 encoding"
  | unexpectedToken => Bytes.ascii "unexpected token"
  | trailingData => Bytes.ascii "trailing data after JSON value"
  | unterminatedValue => Bytes.ascii "unterminated value"
  | invalidNumber => Bytes.ascii "invalid number"
  | invalidEscape => Bytes.ascii "invalid escape sequence"
  | depthExceeded => Bytes.ascii "maximum nesting depth exceeded"
  | invalidInput => Bytes.ascii "invalid input buffer"
  | typeMismatch => Bytes.ascii "type mismatch"
  | outOfRange => Bytes.ascii "index out of range"
  | nonFiniteFloat => Bytes.ascii "NaN or Infinity not permitted"

def describe (n : Int) : Bytes :=
  match ofNumber? n with
  | some code => code.message
  | none => Bytes.ascii "unknown mjson error"

/-- A failure's own text followed by the message of its code. A zero byte in the text ends the
whole report. -/
def report (code : ErrorCode) (text : Bytes) : Bytes :=
  (text ++ Bytes.ascii ": " ++ code.message).untilZero

end ErrorCode
end JsonCodec
