import JsonCodec.Value.Access

set_option autoImplicit false

/-!
# Changing values in place

An edit changes a value and answers, or fails and leaves the value as far as it was changed: a path
creates the members it misses, and they stay even if the edit fails further on.
-/
namespace JsonCodec

abbrev Edit := EStateM AccessError Value

namespace Edit

variable {α : Type}

def ofExcept : Except AccessError α → Edit α
  | .ok a => pure a
  | .error e => throw e

/-- Makes an edit of a part an edit of the whole, which is put together again in either case. -/
def within (part : Value) (whole : Value → Value) (edit : Edit α) : Edit α := fun _ =>
  match edit part with
  | .ok a part => .ok a (whole part)
  | .error e part => .error e (whole part)

/-- The edit one step further in. A missing key is created with null. -/
def step (s : PathStep) (edit : Edit α) : Edit α := do
  match s with
  | .index i =>
    let items ← ofExcept (← get).toItems
    let index := PathStep.wrapIndex i
    match items[index]? with
    | some item => within item (fun item => .array (items.set index item)) edit
    | none => throw (.indexRange index items.length)
  | .key k =>
    let members ← ofExcept (← get).toMembers
    let (position, members) := members.require k .null
    match members.memberAt? position with
    | some member => within member (fun member => .object (members.setAt position member)) edit
    | none => throw (.missingKey k)

def along (path : List PathStep) (edit : Edit α) : Edit α := path.foldr step edit

def put (v : Value) : Edit Unit := set v

def push (item : Value) : Edit Unit := do
  let items ← ofExcept (← get).toItems
  set (Value.array (items ++ [item]))

def insert (key : Bytes) (member : Value) : Edit Unit := do
  let members ← ofExcept (← get).toMembers
  set (Value.object (members.insert key member))

def erase (key : Bytes) : Edit Bool := do
  let members ← ofExcept (← get).toMembers
  let (found, members) := members.erase key
  set (Value.object members)
  return found

def clear : Edit Unit := do
  let _ ← ofExcept (← get).toMembers
  set (Value.object Object.empty)

end Edit
end JsonCodec
