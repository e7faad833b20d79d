import JsonCodec.Decode.Scanner
import JsonCodec.Utf8

set_option autoImplicit false

namespace JsonCodec.StringLiteral

def isPlain (b : UInt8) : Bool := b != Byte.quote && b != Byte.backslash && !Byte.isControl b

def escaped? : UInt8 → Option UInt8
  | 0x22 => some Byte.quote
  | 0x5C => some Byte.backslash
  | 0x2F => some 0x2F
  | 0x62 => some 0x08
  | 0x66 => some 0x0C
  | 0x6E => some Byte.newline
  | 0x72 => some Byte.carriageReturn
  | 0x74 => some Byte.tab
  | _ => none

def isHighSurrogate (cp : Nat) : Bool := 0xD800 ≤ cp && cp ≤ 0xDBFF

def isLowSurrogate (cp : Nat) : Bool := 0xDC00 ≤ cp && cp ≤ 0xDFFF

def joinSurrogates (high low : Nat) : Nat := 0x10000 + (high - 0xD800) * 1024 + (low - 0xDC00)

/-- Four hexadecimal digits, all of which are there before any is looked at. -/
def hexGroup : Scanner Nat := do
  match ← get with
  | a :: b :: c :: d :: rest =>
    match Byte.hexValue? a, Byte.hexValue? b, Byte.hexValue? c, Byte.hexValue? d with
    | some a, some b, some c, some d =>
      set rest
      return ((a * 16 + b) * 16 + c) * 16 + d
    | _, _, _, _ => throw .invalidHexDigit
  | _ => throw .incompleteUnicode

def lowSurrogate : Scanner Nat := do
  match ← get with
  | 0x5C :: 0x75 :: rest =>
    set rest
    let low ← hexGroup
    if isLowSurrogate low then return low else throw .invalidLowSurrogate
  | _ => throw .missingLowSurrogate

def codePoint : Scanner Nat := do
  let cp ← hexGroup
  if isHighSurrogate cp then return joinSurrogates cp (← lowSurrogate)
  else if isLowSurrogate cp then throw .unexpectedLowSurrogate
  else return cp

def escape : Scanner Bytes := do
  match ← get with
  | [] => throw .unterminatedEscape
  | b :: rest =>
    match escaped? b with
    | some c =>
      set rest
      return [c]
    | none =>
      if b = 0x75 then
        set rest
        return Utf8.encode (← codePoint)
      else throw (.unknownEscape b)

/-- The content of a literal in at most `fuel` runs of plain bytes. -/
def pieces : Nat → Scanner Bytes
  | 0 => throw .unterminatedString
  | fuel + 1 => do
    let text ← get
    let run := text.takeWhile isPlain
    let rest := text.dropWhile isPlain
    set rest
    match rest with
    | [] => throw .unterminatedString
    | b :: rest =>
      if b = Byte.quote then
        set rest
        return run
      else if b = Byte.backslash then
        set rest
        let spelled ← escape
        return run ++ spelled ++ (← pieces fuel)
      else throw .controlByte

def content : Scanner Bytes := do
  let text ← get
  match text.dropWhile isPlain with
  | 0x22 :: rest =>
    set rest
    return text.takeWhile isPlain
  | _ => pieces (text.length + 1)

end JsonCodec.StringLiteral
