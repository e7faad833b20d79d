import JsonCodec.Dialect
import JsonCodec.ErrorCode

set_option autoImplicit false

namespace JsonCodec

structure EncodeOptions where
  dialect : Dialect := .extended
  indent : Bool := false
  sortKeys : Bool := false
  newline : Bool := false
  disallowNonFinite : Bool := false
  sanitizeNonFinite : Bool := false
deriving DecidableEq, Repr, Inhabited

namespace EncodeOptions

/-- The options of a word of flags, of which the lowest five bits are looked at. -/
def ofFlags (dialect : Dialect) (flags : UInt32) : EncodeOptions where
  dialect := dialect
  indent := flags &&& 1 != 0
  sortKeys := flags &&& 2 != 0
  newline := flags &&& 4 != 0
  disallowNonFinite := flags &&& 8 != 0
  sanitizeNonFinite := flags &&& 16 != 0

def nonFiniteAsNull (o : EncodeOptions) : Bool := o.disallowNonFinite || o.sanitizeNonFinite

end EncodeOptions

inductive EncodeError where
  | nan
  | infinity
deriving DecidableEq, Repr, Inhabited

namespace EncodeError

def code (_ : EncodeError) : ErrorCode := .nonFiniteFloat

def text : EncodeError → Bytes
  | nan => Bytes.ascii "cannot serialize NaN in strict JSON"
  | infinity => Bytes.ascii "cannot serialize Infinity in strict JSON"

def message (e : EncodeError) : Bytes := e.code.report e.text

end EncodeError
end JsonCodec
