import JsonCodec.Bytes

set_option autoImplicit false

namespace JsonCodec.Utf8

def continuation (n : Nat) : UInt8 := (0x80 + n % 64).toUInt8

/-- The bytes of a code point. Surrogates are written like any other number of their size;
numbers above 10FFFF have no bytes. -/
def encode (cp : Nat) : Bytes :=
  if cp < 0x80 then [cp.toUInt8]
  else if cp < 0x800 then [(0xC0 + cp / 64).toUInt8, continuation cp]
  else if cp < 0x10000 then
    [(0xE0 + cp / 4096).toUInt8, continuation (cp / 64), continuation cp]
  else if cp ≤ 0x10FFFF then
    [(0xF0 + cp / 262144).toUInt8, continuation (cp / 4096), continuation (cp / 64),
      continuation cp]
  else []

def sequenceLength (lead : UInt8) : Nat :=
  if lead < 0x80 then 1
  else if lead < 0xC0 then 0
  else if lead < 0xE0 then 2
  else if lead < 0xF0 then 3
  else if lead < 0xF8 then 4
  else 0

def isContinuation (b : UInt8) : Bool := 0x80 ≤ b && b < 0xC0

def isSurrogate (cp : Nat) : Bool := 0xD800 ≤ cp && cp ≤ 0xDFFF

def leadBits (length : Nat) (lead : UInt8) : Nat :=
  match length with
  | 2 => lead.toNat % 32
  | 3 => lead.toNat % 16
  | _ => lead.toNat % 8

/-- A sequence of `length` bytes is too long for smaller code points than this. -/
def leastOf (length : Nat) : Nat :=
  match length with
  | 2 => 0x80
  | 3 => 0x800
  | _ => 0x10000

def afterSequence? (lead : UInt8) (tail : Bytes) : Option Bytes :=
  if lead < 0x80 then some tail
  else
    let length := sequenceLength lead
    let follow := tail.take (length - 1)
    if length = 0 || follow.length + 1 < length || !follow.all isContinuation then none
    else
      let cp := follow.foldl (fun cp b => cp * 64 + b.toNat % 64) (leadBits length lead)
      if cp < leastOf length || isSurrogate cp || 0x10FFFF < cp then none
      else some (tail.drop (length - 1))

/-- Passes over ASCII eight bytes at a time: no byte of such a group has its high bit set. -/
def skipAscii : Bytes → Bytes
  | a :: b :: c :: d :: e :: f :: g :: h :: rest =>
    if (a ||| b ||| c ||| d ||| e ||| f ||| g ||| h) < 0x80 then skipAscii rest
    else a :: b :: c :: d :: e :: f :: g :: h :: rest
  | rest => rest

def illFormedWithin : Nat → Bytes → Bytes
  | 0, text => text
  | fuel + 1, text =>
    match skipAscii text with
    | [] => []
    | lead :: tail =>
      match afterSequence? lead tail with
      | some rest => illFormedWithin fuel rest
      | none => lead :: tail

def illFormed (text : Bytes) : Bytes := illFormedWithin text.length text

def validLength (text : Bytes) : Nat := text.length - (illFormed text).length

def isValid (text : Bytes) : Bool := validLength text == text.length

end JsonCodec.Utf8
