import JsonCodec.Bytes

set_option autoImplicit false

/-!
# Buffered output

Short pieces are gathered in a buffer of fixed size, which is passed on when the next piece does not
fit it. A piece as long as the buffer is passed on by itself.
-/
namespace JsonCodec

/-- What has been passed on, and what is still in the buffer. -/
structure Output where
  passed : Array UInt8 := #[]
  buffer : Array UInt8 := #[]
deriving DecidableEq, Repr, Inhabited

namespace Output

def capacity : Nat := 4096

def empty : Output := {}

def flush (out : Output) : Output := ⟨out.passed ++ out.buffer, #[]⟩

def push (out : Output) (b : UInt8) : Output :=
  let out := if capacity ≤ out.buffer.size then out.flush else out
  { out with buffer := out.buffer.push b }

def append (out : Output) (run : Bytes) : Output :=
  if out.buffer.size + run.length ≤ capacity then { out with buffer := out.buffer ++ run }
  else
    let out := out.flush
    if capacity ≤ run.length then { out with passed := out.passed ++ run }
    else { out with buffer := run.toArray }

def take (out : Output) : Bytes := out.flush.passed.toList

end Output
end JsonCodec
