import JsonCodec.KeyHash

set_option autoImplicit false

/-!
# Keys and the key cache

Every key made is an instance of its own, told apart by its serial number; the empty key exists
once. The cache is a table of fixed size that keeps, for each residue of the hash, the key interned
last, and hands it out again for the same bytes.
-/
namespace JsonCodec

structure Key where
  bytes : Bytes
  serial : Nat
deriving DecidableEq, Repr, Inhabited

def Key.empty : Key := ⟨[], 0⟩

def Key.sameInstance (a b : Key) : Bool := a.serial == b.serial

namespace KeyCache

def capacity : Nat := 2048

def maxKeyLength : Nat := 64

structure Slot where
  hash : UInt64
  key : Key
deriving DecidableEq, Repr

end KeyCache

/-- The counters are whole numbers of any size. In words of 64 bits they would be the same for the
first 2^64 calls. -/
structure KeyCache where
  slots : Vector (Option KeyCache.Slot) KeyCache.capacity
  hits : Nat
  misses : Nat
  bypasses : Nat
  occupancy : Nat
  made : Nat

namespace KeyCache

def empty : KeyCache := ⟨Vector.replicate capacity none, 0, 0, 0, 0, 0⟩

instance : Inhabited KeyCache := ⟨empty⟩

def slotOf (hash : UInt64) : Fin capacity := ⟨hash.toNat % capacity, Nat.mod_lt _ (by decide)⟩

def Slot.holds (slot : Slot) (hash : UInt64) (bytes : Bytes) : Bool :=
  slot.hash == hash && slot.key.bytes == bytes

/-- Makes a new instance without looking at the table; there is only one empty key. -/
def make (cache : KeyCache) (bytes : Bytes) : Key × KeyCache :=
  if bytes.isEmpty then (Key.empty, cache)
  else (⟨bytes, cache.made + 1⟩, { cache with made := cache.made + 1 })

def makeAll (cache : KeyCache) : List Bytes → List Key × KeyCache
  | [] => ([], cache)
  | bytes :: rest =>
    let (key, cache) := cache.make bytes
    let (keys, cache) := cache.makeAll rest
    (key :: keys, cache)

def store (cache : KeyCache) (hash : UInt64) (bytes : Bytes) : Key × KeyCache :=
  let (key, cache) := cache.make bytes
  let vacant := cache.slots[slotOf hash].isNone
  (key, { cache with
    slots := cache.slots.set (slotOf hash) (some ⟨hash, key⟩)
    misses := cache.misses + 1
    occupancy := if vacant then cache.occupancy + 1 else cache.occupancy })

/-- The key for some bytes: the cached instance if there is one, a new one otherwise. -/
def intern (cache : KeyCache) (bytes : Bytes) : Key × KeyCache :=
  if maxKeyLength < bytes.length then
    { cache with bypasses := cache.bypasses + 1 }.make bytes
  else
    let hash := KeyHash.ofBytes bytes
    match cache.slots[slotOf hash] with
    | some slot =>
      if slot.holds hash bytes then (slot.key, { cache with hits := cache.hits + 1 })
      else cache.store hash bytes
    | none => cache.store hash bytes

def contains (cache : KeyCache) (bytes : Bytes) : Bool :=
  if maxKeyLength < bytes.length then false
  else
    let hash := KeyHash.ofBytes bytes
    match cache.slots[slotOf hash] with
    | some slot => slot.holds hash bytes
    | none => false

/-- Forgets all keys and counts. Keys handed out before stay what they are. -/
def clear (cache : KeyCache) : KeyCache := { empty with made := cache.made }

end KeyCache
end JsonCodec
