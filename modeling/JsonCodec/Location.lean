import JsonCodec.Bytes

set_option autoImplicit false

namespace JsonCodec

/-- A place in a text: byte offset, line and column, where columns count bytes. -/
structure Location where
  line : Nat
  column : Nat
  offset : Nat
deriving DecidableEq, Repr, Inhabited

namespace Location

def start : Location := ⟨1, 1, 0⟩

def advance (loc : Location) (b : UInt8) : Location :=
  if b = Byte.newline then ⟨loc.line + 1, 1, loc.offset + 1⟩
  else ⟨loc.line, loc.column + 1, loc.offset + 1⟩

end Location

def locate (text : Bytes) (offset : Nat) : Location :=
  (text.take offset).foldl Location.advance Location.start

end JsonCodec
