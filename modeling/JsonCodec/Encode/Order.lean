import JsonCodec.Encode.Options
import JsonCodec.Value.Basic

set_option autoImplicit false

namespace JsonCodec.Value

def sortMembers (members : List (Bytes × Value)) : List (Bytes × Value) :=
  members.mergeSort fun a b => a.1 ≤ b.1

/-- The members of an object in the order in which they are written. -/
def inOrder (o : EncodeOptions) (members : List (Bytes × Value)) : List (Bytes × Value) :=
  if o.sortKeys then sortMembers members else members

theorem sizeOf_perm {members members' : List (Bytes × Value)} (h : members.Perm members') :
    sizeOf members = sizeOf members' := by
  induction h with
  | nil => rfl
  | cons m _ ih => rw [List.cons.sizeOf_spec, List.cons.sizeOf_spec, ih]
  | swap m m' rest =>
    simp only [List.cons.sizeOf_spec]
    omega
  | trans _ _ ih ih' => exact ih.trans ih'

theorem sizeOf_inOrder (o : EncodeOptions) (members : List (Bytes × Value)) :
    sizeOf (inOrder o members) = sizeOf members := by
  rw [inOrder]
  split
  · exact sizeOf_perm (List.mergeSort_perm _ _)
  · rfl

end JsonCodec.Value
