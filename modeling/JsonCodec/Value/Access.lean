import JsonCodec.Decimal
import JsonCodec.ErrorCode
import JsonCodec.Value.Number

set_option autoImplicit false

namespace JsonCodec

inductive Expectation where
  | kind (k : Kind)
  | number
deriving DecidableEq, Repr

def Expectation.name : Expectation → Bytes
  | kind k => k.name
  | number => Bytes.ascii "number"

inductive AccessError where
  | mismatch (expected : Expectation) (actual : Kind)
  | indexRange (index size : Nat)
  | missingKey (key : Bytes)
deriving DecidableEq, Repr

namespace AccessError

def code : AccessError → ErrorCode
  | mismatch _ _ => .typeMismatch
  | indexRange _ _ => .outOfRange
  | missingKey _ => .outOfRange

def text : AccessError → Bytes
  | mismatch expected actual =>
    Bytes.ascii "expected " ++ expected.name ++ Bytes.ascii ", got " ++ actual.name
  | indexRange index size =>
    Bytes.ascii "array index " ++ Decimal.ofNat index ++ Bytes.ascii " out of range (size=" ++
      Decimal.ofNat size ++ Bytes.ascii ")"
  | missingKey key => Bytes.ascii "key not found: \"" ++ key ++ Bytes.ascii "\""

def message (e : AccessError) : Bytes := e.code.report e.text

end AccessError

inductive PathStep where
  | index (i : Int)
  | key (k : Bytes)
deriving DecidableEq, Repr

/-- An index as it is looked up: a negative one wraps around to a huge one. -/
def PathStep.wrapIndex (i : Int) : Nat := (i % Decimal.wordLimit).toNat

namespace Value

def expect {α : Type} (v : Value) (expected : Expectation) (content : Option α) :
    Except AccessError α :=
  match content with
  | some a => .ok a
  | none => .error (.mismatch expected v.kind)

def toBool (v : Value) : Except AccessError Bool :=
  v.expect (.kind .bool) (match v with | bool b => some b | _ => none)

def toInt64 (v : Value) : Except AccessError Int64 :=
  v.expect (.kind .int64) ((v.signedMagnitude?.bind (·.toSigned? 64)).map Int64.ofBitVec)

def toUInt64 (v : Value) : Except AccessError UInt64 :=
  v.expect (.kind .uint64) ((v.signedMagnitude?.bind (·.toUnsigned? 64)).map UInt64.ofBitVec)

def toInt128 (v : Value) : Except AccessError (BitVec 128) :=
  v.expect (.kind .int128) (v.signedMagnitude?.bind (·.toSigned? 128))

def toUInt128 (v : Value) : Except AccessError (BitVec 128) :=
  v.expect (.kind .uint128) (v.signedMagnitude?.bind (·.toUnsigned? 128))

def toBinary64 (v : Value) : Except AccessError Binary64 := v.expect .number v.toFloat?

def toText (v : Value) : Except AccessError Bytes :=
  v.expect (.kind .string) (match v with | string text => some text | _ => none)

def toItems (v : Value) : Except AccessError (List Value) :=
  v.expect (.kind .array) (match v with | array items => some items | _ => none)

def toMembers (v : Value) : Except AccessError (Object Value) :=
  v.expect (.kind .object) (match v with | object members => some members | _ => none)

def itemAt (v : Value) (index : Nat) : Except AccessError Value := do
  let items ← v.toItems
  match items[index]? with
  | some item => .ok item
  | none => .error (.indexRange index items.length)

def memberAt (v : Value) (key : Bytes) : Except AccessError Value := do
  let members ← v.toMembers
  match members.find? key with
  | some member => .ok member
  | none => .error (.missingKey key)

def find? (v : Value) (key : Bytes) : Option Value :=
  match v with
  | object members => members.find? key
  | _ => none

def contains (v : Value) (key : Bytes) : Bool := (v.find? key).isSome

def follow (v : Value) : PathStep → Except AccessError Value
  | .index i => v.itemAt (PathStep.wrapIndex i)
  | .key k => v.memberAt k

def get (v : Value) : List PathStep → Except AccessError Value
  | [] => .ok v
  | step :: path => do (← v.follow step).get path

end Value
end JsonCodec
