import JsonCodec.Decode.NumberLiteral
import JsonCodec.Decode.StringLiteral
import JsonCodec.KeyCache

set_option autoImplicit false

namespace JsonCodec

structure Cursor where
  rest : Bytes
  keys : KeyCache

/-- Reads from a text and takes keys from a cache. Both are left as they were at a fault. -/
abbrev Reader := EStateM Fault Cursor

structure Parsed where
  value : Value
  keys : Option (List Key) := none

namespace Reader

variable {α : Type}

def scan (s : Scanner α) : Reader α := fun cursor =>
  match s cursor.rest with
  | .ok a rest => .ok a { cursor with rest }
  | .error fault rest => .error fault { cursor with rest }

def key (o : DecodeOptions) (bytes : Bytes) : Reader Key := modifyGet fun cursor =>
  let (key, keys) := if o.useKeyCache then cursor.keys.intern bytes else cursor.keys.make bytes
  (key, { cursor with keys })

def peek : Reader UInt8 := scan do
  Scanner.skipSpace
  match ← get with
  | [] => throw .unexpectedEnd
  | b :: _ => return b

def skip : Reader Unit := scan (modify (·.drop 1))

def items (container : Container) (item : Reader α) : Nat → Reader (List α)
  | 0 => throw .unexpectedEnd
  | fuel + 1 => do
    let first ← item
    let b ← peek
    if b = Byte.comma then
      skip
      return first :: (← items container item fuel)
    else if b = container.close then
      skip
      return [first]
    else throw (.expectedMore container)

def content (container : Container) (item : Reader α) : Reader (List α) := do
  if (← peek) = container.close then
    skip
    return []
  else
    let fuel := (← get).rest.length + 1
    items container item fuel

def member (o : DecodeOptions) (value : Reader Parsed) : Reader (Key × Value) := do
  if (← peek) ≠ Byte.quote then throw .expectedKey
  skip
  let key ← key o (← scan StringLiteral.content)
  scan do
    Scanner.skipSpace
    Scanner.expect Byte.colon
  let parsed ← value
  return (key, parsed.value)

def array (value : Reader Parsed) : Reader Parsed := do
  let parsed ← content .array value
  return { value := .array (parsed.map Parsed.value) }

/-- An object, after its opening brace. Of members with the same key the last one stays. -/
def object (o : DecodeOptions) (value : Reader Parsed) : Reader Parsed := do
  let members ← content .object (member o value)
  let (kept, index) := Object.lastOfEach (fun member : Key × Value => member.1.bytes) members
  return {
    value := .object ⟨kept.map fun (key, value) => (key.bytes, value), index⟩
    keys := some (kept.map Prod.fst) }

def named (spelling : Bytes) (value : Value) : Reader Parsed := do
  scan (Scanner.word spelling)
  return { value }

def startsNumber (b : UInt8) : Bool := b == Byte.minus || Byte.isDigit b

/-- A value, told by its first byte. What is inside a container is left to `inside`. -/
def opening (o : DecodeOptions) (extent : Extent) (inside : Container → Reader Parsed) :
    Reader Parsed := do
  let b ← peek
  if b = Byte.quote then
    skip
    return { value := .string (← scan StringLiteral.content) }
  else if b = Byte.openBrace then
    skip
    inside .object
  else if b = Byte.openBracket then
    skip
    inside .array
  else if b = 0x74 then named (Bytes.ascii "true") (.bool true)
  else if b = 0x66 then named (Bytes.ascii "false") (.bool false)
  else if b = 0x6E then named (Bytes.ascii "null") .null
  else if startsNumber b then return { value := ← scan (NumberLiteral.value o extent) }
  else if o.dialect.hasNonFinite && b == 0x4E then
    named (Bytes.ascii "NaN") (.float .nan)
  else if o.dialect.hasNonFinite && b == 0x49 then
    named NumberLiteral.infinityWord (.float (.infinity false))
  else throw (.unexpectedByte b)

def value (o : DecodeOptions) (extent : Extent) : Nat → Reader Parsed
  | 0 => opening o extent fun _ => throw .tooDeep
  | levels + 1 => opening o extent fun
    | .array => array (value o extent levels)
    | .object => object o (value o extent levels)

def document (o : DecodeOptions) : Reader Parsed := do
  let parsed ← value o .whole o.depthLimit
  scan Scanner.skipSpace
  if !(← get).rest.isEmpty then throw .trailingContent
  return parsed

def leadingValue (o : DecodeOptions) : Reader Parsed := value o .leading o.depthLimit

end Reader
end JsonCodec
