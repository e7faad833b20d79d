import JsonCodec.Dialect
import JsonCodec.Numeral

set_option autoImplicit false

namespace JsonCodec

structure DecodeOptions where
  dialect : Dialect := .extended
  /-- How deep arrays and objects may nest; 0 stands for the default. -/
  maxDepth : Nat := 1024
  validateUtf8 : Bool := true
  useKeyCache : Bool := true
  bigInteger : Option BigInteger := none

def DecodeOptions.depthLimit (o : DecodeOptions) : Nat :=
  if o.maxDepth = 0 then 1024 else o.maxDepth

/-- Whether a text is one value, or starts with one and goes on as the caller likes. -/
inductive Extent where
  | whole
  | leading
deriving DecidableEq, Repr, Inhabited

end JsonCodec
