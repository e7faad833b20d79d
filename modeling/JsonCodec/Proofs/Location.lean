import Mathlib
import JsonCodec.Location

set_option autoImplicit false

namespace JsonCodec

theorem offset_advance (loc : Location) (b : UInt8) : (loc.advance b).offset = loc.offset + 1 := by
  unfold Location.advance
  split_ifs <;> rfl

theorem offset_foldl (loc : Location) (text : Bytes) :
    (text.foldl Location.advance loc).offset = loc.offset + text.length := by
  induction text generalizing loc with
  | nil => rfl
  | cons b text ih =>
    rw [List.foldl_cons, ih, offset_advance, List.length_cons]
    omega

theorem offset_locate (text : Bytes) (k : Nat) : (locate text k).offset = min k text.length := by
  rw [locate, offset_foldl, List.length_take, Location.start, Nat.zero_add]

end JsonCodec
