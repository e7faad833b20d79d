import JsonCodec.Decode.Fault

set_option autoImplicit false

/-!
# Scanners

A scanner takes bytes off the front of a text. When it fails, what is left starts at the fault.
-/
namespace JsonCodec

abbrev Scanner := EStateM Fault Bytes

namespace Scanner

def skipSpace : Scanner Unit := modify (·.dropWhile Byte.isSpace)

def expect (wanted : UInt8) : Scanner Unit := do
  match ← get with
  | [] => throw .unexpectedEnd
  | b :: rest => if b = wanted then set rest else throw (.expectedByte wanted b)

/-- Takes a word. A text that ends inside the word is cut short rather than wrong. -/
def word (spelling : Bytes) : Scanner Unit := do
  let text ← get
  if spelling.isPrefixOf text then set (text.drop spelling.length)
  else if text.isPrefixOf spelling then
    set ([] : Bytes)
    throw .unexpectedEnd
  else throw (.expectedWord spelling)

end Scanner
end JsonCodec
