import Mathlib
import JsonCodec.Encode.Output

set_option autoImplicit false

namespace JsonCodec.Output

theorem take_eq (out : Output) : out.take = out.passed.toList ++ out.buffer.toList := by
  simp [take, flush]

@[simp] theorem take_empty : empty.take = [] := rfl

@[simp] theorem take_push (out : Output) (b : UInt8) : (out.push b).take = out.take ++ [b] := by
  unfold push
  split_ifs
  · simp [take_eq, flush]
  · simp [take_eq]

@[simp] theorem take_append (out : Output) (run : Bytes) : (out.append run).take = out.take ++ run := by
  rw [append]
  split_ifs
  · simp [take_eq]
  · simp [take_eq, flush]
  · simp [take_eq, flush]

theorem take_repeat_append (run : Bytes) (count : Nat) (out : Output) :
    (Nat.repeat (·.append run) count out).take =
      out.take ++ (List.replicate count run).flatten := by
  induction count with
  | zero => simp [Nat.repeat]
  | succ count ih =>
    rw [Nat.repeat, take_append, ih, List.replicate_succ', List.flatten_concat, List.append_assoc]

end JsonCodec.Output
