set_option autoImplicit false

namespace JsonCodec

/-- The extended dialect has the tokens `NaN`, `Infinity` and `-Infinity`; the strict one does
not. -/
inductive Dialect where
  | extended
  | strict
deriving DecidableEq, Repr, Inhabited

def Dialect.hasNonFinite : Dialect → Bool
  | extended => true
  | strict => false

end JsonCodec
