import Std.Data.HashMap
import JsonCodec.Bytes

set_option autoImplicit false

/-!
# Objects

An object lists its members in the order in which their keys came, each key once. From sixteen
members on a look-up goes through an index from keys to positions, which is built on demand and
dropped whenever members come or go.
-/
namespace JsonCodec

abbrev KeyIndex := Std.HashMap Bytes Nat

/-- Members in order, and the index if one has been built. -/
structure Object (α : Type) where
  entries : List (Bytes × α) := []
  index : Option KeyIndex := none

namespace KeyIndex

def enter : List Bytes → Nat → KeyIndex → KeyIndex
  | [], _, index => index
  | key :: keys, position, index => enter keys (position + 1) (index.insert key position)

def ofKeys (keys : List Bytes) : KeyIndex := enter keys 0 ∅

end KeyIndex

namespace Object

variable {α : Type}

def indexThreshold : Nat := 16

def empty : Object α := {}

instance : Inhabited (Object α) := ⟨empty⟩

def size (o : Object α) : Nat := o.entries.length

def isEmpty (o : Object α) : Bool := o.entries.isEmpty

def keys (o : Object α) : List Bytes := o.entries.map Prod.fst

def usesIndex (o : Object α) : Bool := indexThreshold ≤ o.size

def builtIndex (o : Object α) : KeyIndex := o.index.getD (KeyIndex.ofKeys o.keys)

def indexed (o : Object α) : Object α :=
  if o.usesIndex then { o with index := some o.builtIndex } else o

@[simp] theorem entries_indexed (o : Object α) : o.indexed.entries = o.entries := by
  rw [indexed]
  split <;> rfl

def position? (o : Object α) (key : Bytes) : Option Nat :=
  if o.usesIndex then o.builtIndex[key]? else o.entries.findIdx? (·.1 == key)

def memberAt? (o : Object α) (position : Nat) : Option α := (o.entries[position]?).map Prod.snd

def find? (o : Object α) (key : Bytes) : Option α := (o.position? key).bind o.memberAt?

def contains (o : Object α) (key : Bytes) : Bool := (o.find? key).isSome

def setAt (o : Object α) (position : Nat) (value : α) : Object α :=
  { o with entries := o.entries.modify position fun member => (member.1, value) }

/-- The object with a new last member. The index does not know it and is dropped. -/
def append (o : Object α) (key : Bytes) (value : α) : Object α :=
  { entries := o.entries ++ [(key, value)], index := none }

/-- Replaces the value of a key where it stands, or adds the key at the end. -/
def insert (o : Object α) (key : Bytes) (value : α) : Object α :=
  let o := o.indexed
  match o.position? key with
  | some position => o.setAt position value
  | none => o.append key value

/-- The position of a key, which is added at the end if it is missing. -/
def require (o : Object α) (key : Bytes) (missing : α) : Nat × Object α :=
  let o := o.indexed
  match o.position? key with
  | some position => (position, o)
  | none => (o.size, o.append key missing)

def erase (o : Object α) (key : Bytes) : Bool × Object α :=
  if o.entries.any (·.1 == key) then
    (true, { entries := o.entries.eraseP (·.1 == key), index := none })
  else (false, o)

def dropRepeated {β : Type} (keyOf : β → Bytes) : List β → List β
  | [] => []
  | member :: rest =>
    if rest.any (keyOf · == keyOf member) then dropRepeated keyOf rest
    else member :: dropRepeated keyOf rest

def keepIndexed {β : Type} (keyOf : β → Bytes) (index : KeyIndex) (members : List β) : List β :=
  (members.zipIdx.filter fun (member, position) => index[keyOf member]? == some position).map
    Prod.fst

/-- Keeps the last member of each key, in their order: by search in short lists, through the index,
which is then kept up, in long ones. -/
def lastOfEach {β : Type} (keyOf : β → Bytes) (members : List β) : List β × Option KeyIndex :=
  if members.length < indexThreshold then (dropRepeated keyOf members, none)
  else
    let index := KeyIndex.ofKeys (members.map keyOf)
    if index.size = members.length then (members, some index)
    else
      let kept := keepIndexed keyOf index members
      (kept, some (KeyIndex.ofKeys (kept.map keyOf)))

def ofList (members : List (Bytes × α)) : Object α :=
  let (entries, index) := lastOfEach Prod.fst members
  { entries, index }

end Object
end JsonCodec
