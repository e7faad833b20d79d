import JsonCodec.Binary64.Basic
import JsonCodec.Object

set_option autoImplicit false

/-!
# Values

The values a text can hold. Integers come in four widths and stay what they were made as; wide ones
are 128 bits, read in two's complement if signed.
-/
namespace JsonCodec

inductive Value where
  | null
  | bool (b : Bool)
  | int64 (n : Int64)
  | uint64 (n : UInt64)
  | int128 (n : BitVec 128)
  | uint128 (n : BitVec 128)
  | float (x : Binary64)
  | string (text : Bytes)
  | array (items : List Value)
  | object (members : Object Value)

instance : Inhabited Value := ⟨.null⟩

inductive Kind where
  | null
  | bool
  | int64
  | uint64
  | int128
  | uint128
  | float
  | string
  | array
  | object
deriving DecidableEq, Repr, Inhabited

namespace Kind

def all : List Kind :=
  [null, bool, int64, uint64, int128, uint128, float, string, array, object]

def name : Kind → Bytes
  | null => Bytes.ascii "null"
  | bool => Bytes.ascii "bool"
  | int64 => Bytes.ascii "integer"
  | uint64 => Bytes.ascii "uinteger"
  | int128 => Bytes.ascii "integer128"
  | uint128 => Bytes.ascii "uinteger128"
  | float => Bytes.ascii "float"
  | string => Bytes.ascii "string"
  | array => Bytes.ascii "array"
  | object => Bytes.ascii "object"

def nameOfNumber (n : Nat) : Bytes :=
  match all[n]? with
  | some kind => kind.name
  | none => Bytes.ascii "unknown"

end Kind

namespace Value

def kind : Value → Kind
  | null => .null
  | bool _ => .bool
  | int64 _ => .int64
  | uint64 _ => .uint64
  | int128 _ => .int128
  | uint128 _ => .uint128
  | float _ => .float
  | string _ => .string
  | array _ => .array
  | object _ => .object

def size : Value → Nat
  | array items => items.length
  | object members => members.size
  | _ => 0

def isEmpty : Value → Bool
  | null => true
  | string text => text.isEmpty
  | array items => items.isEmpty
  | object members => members.isEmpty
  | _ => false

mutual

/-- A copy is equal in content at every depth, and its objects have no index yet. -/
def copy : Value → Value
  | array items => .array (copyItems items)
  | object ⟨entries, _⟩ => .object ⟨copyMembers entries, none⟩
  | value => value

def copyItems : List Value → List Value
  | [] => []
  | item :: rest => item.copy :: copyItems rest

def copyMembers : List (Bytes × Value) → List (Bytes × Value)
  | [] => []
  | (key, value) :: rest => (key, value.copy) :: copyMembers rest

end

end Value
end JsonCodec
