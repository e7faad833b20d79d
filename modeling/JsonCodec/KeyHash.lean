import JsonCodec.Bytes

set_option autoImplicit false

namespace JsonCodec.KeyHash

def seed : UInt64 := 0xa0761d6478bd642f

def multiplier : UInt64 := 0xe7037ed1a0b428db

def word (bytes : Bytes) : UInt64 := bytes.foldr (fun b w => w <<< 8 ||| b.toUInt64) 0

def mix (h a b : UInt64) : UInt64 := ((h ^^^ a) * multiplier ^^^ b) * seed

def mixBlocks : Nat → Bytes → UInt64 → UInt64
  | 0, _, h => h
  | blocks + 1, bytes, h =>
    mixBlocks blocks (bytes.drop 16) (mix h (word (bytes.take 8)) (word ((bytes.drop 8).take 8)))

def avalanche (h : UInt64) : UInt64 :=
  let h := (h ^^^ h >>> 32) * seed
  h ^^^ h >>> 29

def lastBytes (n : Nat) (bytes : Bytes) : Bytes := bytes.drop (bytes.length - n)

/-- The two words of a key of at most sixteen bytes: its ends, which overlap in a key shorter than
both; a key of one to three bytes is spelled by its first, middle and last. -/
def shortWords (bytes : Bytes) : UInt64 × UInt64 :=
  let length := bytes.length
  if 8 < length then (word (bytes.take 8), word (lastBytes 8 bytes))
  else if 4 ≤ length then (word (bytes.take 4), word (lastBytes 4 bytes))
  else
    match bytes with
    | [] => (0, 0)
    | first :: _ =>
      (word [bytes.getLastD 0, bytes.getD (length / 2) 0, first], 0)

/-- The hash of a byte string. Beyond sixteen bytes all whole blocks are mixed in, and then the last
sixteen bytes, which overlap the last block. -/
def ofBytes (bytes : Bytes) : UInt64 :=
  let length := bytes.length
  let start := seed ^^^ length.toUInt64 * multiplier
  if length ≤ 16 then
    let (a, b) := shortWords bytes
    avalanche (mix start a b)
  else
    let mixed := mixBlocks (length / 16) bytes start
    let tail := lastBytes 16 bytes
    avalanche (mix mixed (word (tail.take 8)) (word (tail.drop 8)))

/-- The hash a key carries: 0 stands for a hash not yet computed, so 1 takes its place. -/
def ofKey (bytes : Bytes) : UInt64 := if ofBytes bytes = 0 then 1 else ofBytes bytes

end JsonCodec.KeyHash
