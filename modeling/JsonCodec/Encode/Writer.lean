import JsonCodec.Binary64.Text
import JsonCodec.Encode.Options
import JsonCodec.Encode.Order
import JsonCodec.Encode.Output
import JsonCodec.Encode.StringLiteral

set_option autoImplicit false

/-!
# Encoding values

A value is written from left to right. If the options ask for it, the members of an object are put
in order when it is their turn.
-/
namespace JsonCodec

def Binary64.encode (o : EncodeOptions) (x : Binary64) : Except EncodeError Bytes :=
  if x.isFinite then .ok x.text
  else if o.nonFiniteAsNull then .ok (Bytes.ascii "null")
  else if o.dialect.hasNonFinite then
    if x.isNaN then .ok (Bytes.ascii "NaN")
    else if x.isNegative then .ok (Bytes.ascii "-Infinity")
    else .ok (Bytes.ascii "Infinity")
  else .error (if x.isNaN then .nan else .infinity)

namespace Value

def spacesAtOnce : Nat := 64

/-- Writes spaces, as many at once as can be, and what is left of them last. -/
def writeSpaces (count : Nat) (out : Output) : Output :=
  let out := Nat.repeat (·.append (List.replicate spacesAtOnce Byte.space))
    (count / spacesAtOnce) out
  let left := count % spacesAtOnce
  if left = 0 then out else out.append (List.replicate left Byte.space)

def startLine (o : EncodeOptions) (level : Nat) (out : Output) : Output :=
  if o.indent then writeSpaces (2 * level) (out.push Byte.newline) else out

def writeColon (o : EncodeOptions) (out : Output) : Output :=
  let out := out.push Byte.colon
  if o.indent then out.push Byte.space else out

def writeComma (first : Bool) (out : Output) : Output := if first then out else out.push Byte.comma

def writeScalar (o : EncodeOptions) (out : Output) : Value → Except EncodeError Output
  | null => .ok (out.append (Bytes.ascii "null"))
  | bool b => .ok (out.append (if b then Bytes.ascii "true" else Bytes.ascii "false"))
  | int64 n => .ok (out.append (Decimal.ofSignedWord n))
  | uint64 n => .ok (out.append (Decimal.ofWord n))
  | int128 n => .ok (out.append (Decimal.ofSignedWide n))
  | uint128 n => .ok (out.append (Decimal.ofWide n))
  | float x => do return out.append (← x.encode o)
  | string text => .ok (out.append (StringLiteral.write text))
  | array _ => .ok (out.append [Byte.openBracket, Byte.closeBracket])
  | object _ => .ok (out.append [Byte.openBrace, Byte.closeBrace])

mutual

def write (o : EncodeOptions) (level : Nat) (out : Output) : Value → Except EncodeError Output
  | array (item :: rest) => do
    let out ← writeItems o (level + 1) true (out.push Byte.openBracket) (item :: rest)
    return (startLine o level out).push Byte.closeBracket
  | object ⟨member :: rest, _⟩ => do
    let members := inOrder o (member :: rest)
    let out ← writeMembers o (level + 1) true (out.push Byte.openBrace) members
    return (startLine o level out).push Byte.closeBrace
  | value => writeScalar o out value
termination_by v => sizeOf v
decreasing_by
  · simp only [array.sizeOf_spec]
    omega
  · simp only [sizeOf_inOrder, object.sizeOf_spec, Object.mk.sizeOf_spec]
    omega

def writeItems (o : EncodeOptions) (level : Nat) (first : Bool) (out : Output) :
    List Value → Except EncodeError Output
  | [] => .ok out
  | item :: rest => do
    let out ← write o level (startLine o level (writeComma first out)) item
    writeItems o level false out rest
termination_by items => sizeOf items

def writeMembers (o : EncodeOptions) (level : Nat) (first : Bool) (out : Output) :
    List (Bytes × Value) → Except EncodeError Output
  | [] => .ok out
  | (key, value) :: rest => do
    let out := (startLine o level (writeComma first out)).append (StringLiteral.write key)
    let out ← write o level (writeColon o out) value
    writeMembers o level false out rest
termination_by members => sizeOf members

end

def encode (o : EncodeOptions) (v : Value) : Except EncodeError Bytes := do
  let out ← write o 0 Output.empty v
  return (if o.newline then out.push Byte.newline else out).take

end Value

namespace Encode

def code (result : Except EncodeError Bytes) : ErrorCode :=
  match result with
  | .ok _ => .success
  | .error e => e.code

def textOrEmpty (result : Except EncodeError Bytes) : Bytes :=
  match result with
  | .ok text => text
  | .error _ => []

end Encode
end JsonCodec
