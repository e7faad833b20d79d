import JsonCodec.Value.Basic

set_option autoImplicit false

namespace JsonCodec

inductive Shared where
  | true
  | false
  | null
  | emptyString
deriving DecidableEq, Repr, Inhabited

namespace Shared

def all : List Shared := [.true, .false, .null, .emptyString]

def value : Shared → Value
  | .true => .bool Bool.true
  | .false => .bool Bool.false
  | .null => .null
  | .emptyString => .string []

end Shared

/-- A stored value, told from others by its cell. -/
structure Stored where
  cell : Nat
  value : Value

def Stored.same (a b : Stored) : Bool := a.cell == b.cell

structure Registry where
  cells : Option (Shared → Stored) := none

namespace Registry

def empty : Registry := {}

def isFilled (r : Registry) : Bool := r.cells.isSome

def fill (r : Registry) : Shared → Stored :=
  r.cells.getD fun which => ⟨Shared.all.idxOf which, which.value⟩

def get (r : Registry) (which : Shared) : Stored × Registry := (r.fill which, ⟨some r.fill⟩)

end Registry
end JsonCodec
