import Mathlib
import JsonCodec.Proofs.Encode.Output

set_option autoImplicit false

/-!
# The buffer in memory of fixed size

What is taken off an output is all that was written to it, in order, and between writes the buffer
is never beyond its capacity. Hence the same writes can be carried out in a fixed number of cells,
where every byte is stored at a place: none of them misses the cells.
-/
namespace JsonCodec.Output

inductive Write where
  | byte (b : UInt8)
  | run (bytes : Bytes)
deriving DecidableEq, Repr

def Write.bytes : Write → Bytes
  | byte b => [b]
  | run bytes => bytes

def after (out : Output) : Write → Output
  | .byte b => out.push b
  | .run bytes => out.append bytes

def ofWrites (writes : List Write) : Output := writes.foldl after empty

theorem take_after (out : Output) (w : Write) : (out.after w).take = out.take ++ w.bytes := by
  cases w with
  | byte b => exact take_push out b
  | run bytes => exact take_append out bytes

theorem take_foldl (out : Output) (writes : List Write) :
    (writes.foldl after out).take = out.take ++ writes.flatMap Write.bytes := by
  induction writes generalizing out with
  | nil => simp
  | cons w writes ih => rw [List.foldl_cons, ih, take_after, List.flatMap_cons, List.append_assoc]

abbrev Cells := Vector UInt8 capacity

namespace Cells

def store? (cells : Cells) (i : Nat) (b : UInt8) : Option Cells :=
  if h : i < capacity then some (cells.set i b h) else none

def copy? (cells : Cells) (i : Nat) : Bytes → Option Cells
  | [] => some cells
  | b :: rest => do
    let cells ← cells.store? i b
    cells.copy? (i + 1) rest

def load? (cells : Cells) (position : Nat) : Option Bytes :=
  if position ≤ capacity then some (cells.toList.take position) else none

theorem store?_spec (cells : Cells) {i : Nat} (hi : i < capacity) (b : UInt8) :
    ∃ cells', cells.store? i b = some cells' ∧
      cells'.toList.take (i + 1) = cells.toList.take i ++ [b] := by
  refine ⟨cells.set i b hi, dif_pos hi, ?_⟩
  have hlen : i < (cells.toList.set i b).length := by simpa using hi
  rw [Vector.toList_set, List.take_succ_eq_append_getElem hlen, List.take_set_of_le (le_refl i),
    List.getElem_set_self]

theorem copy?_spec (cells : Cells) {i : Nat} (run : Bytes) (h : i + run.length ≤ capacity) :
    ∃ cells', cells.copy? i run = some cells' ∧
      cells'.toList.take (i + run.length) = cells.toList.take i ++ run := by
  induction run generalizing cells i with
  | nil => exact ⟨cells, rfl, by simp⟩
  | cons b rest ih =>
    rw [List.length_cons] at h
    obtain ⟨stored, hstore, hfirst⟩ := cells.store?_spec (i := i) (by omega) b
    obtain ⟨copied, hcopy, hrest⟩ := ih stored (i := i + 1) (by omega)
    refine ⟨copied, by rw [copy?, hstore, Option.bind_eq_bind, Option.bind_some, hcopy], ?_⟩
    rw [List.length_cons, Nat.add_comm rest.length, ← Nat.add_assoc, hrest, hfirst,
      List.append_assoc, List.singleton_append]

end Cells

/-- What has been passed on, and cells of which those below a position are filled. -/
structure Store where
  passed : Bytes
  cells : Cells
  position : Nat

namespace Store

def flush? (s : Store) : Option Store := do
  let filled ← s.cells.load? s.position
  some { s with passed := s.passed ++ filled, position := 0 }

def push? (s : Store) (b : UInt8) : Option Store := do
  let s ← if capacity ≤ s.position then s.flush? else some s
  let cells ← s.cells.store? s.position b
  some { s with cells, position := s.position + 1 }

def append? (s : Store) (run : Bytes) : Option Store :=
  if s.position + run.length ≤ capacity then do
    let cells ← s.cells.copy? s.position run
    some { s with cells, position := s.position + run.length }
  else do
    let s ← s.flush?
    if capacity ≤ run.length then some { s with passed := s.passed ++ run }
    else
      let cells ← s.cells.copy? 0 run
      some { s with cells, position := run.length }

def after? (s : Store) : Write → Option Store
  | .byte b => s.push? b
  | .run bytes => s.append? bytes

def take? (s : Store) : Option Bytes := do
  let s ← s.flush?
  some s.passed

/-- What an output has passed on and buffered is what stands in the store. -/
structure Holds (s : Store) (out : Output) : Prop where
  passed : s.passed = out.passed.toList
  position : s.position = out.buffer.size
  room : s.position ≤ capacity
  filled : s.cells.toList.take s.position = out.buffer.toList

variable {s : Store} {out : Output}

theorem holds_empty (cells : Cells) : Holds ⟨[], cells, 0⟩ empty where
  passed := rfl
  position := rfl
  room := Nat.zero_le _
  filled := rfl

theorem Holds.flush (h : Holds s out) :
    ∃ s', s.flush? = some s' ∧ Holds s' out.flush ∧ s'.position = 0 := by
  refine ⟨{ s with passed := s.passed ++ out.buffer.toList, position := 0 }, ?_,
    ⟨?_, rfl, Nat.zero_le _, rfl⟩, rfl⟩
  · rw [flush?, Cells.load?, if_pos h.room, h.filled]
    rfl
  · simp [Output.flush, h.passed]

theorem Holds.store (h : Holds s out) (hroom : s.position < capacity) (b : UInt8) :
    ∃ cells, s.cells.store? s.position b = some cells ∧
      Holds { s with cells, position := s.position + 1 }
        { out with buffer := out.buffer.push b } := by
  obtain ⟨cells, hstore, hfilled⟩ := s.cells.store?_spec hroom b
  refine ⟨cells, hstore, h.passed, ?_, hroom, ?_⟩
  · simp [h.position]
  · simp [hfilled, h.filled]

theorem Holds.copy (h : Holds s out) (run : Bytes) (hroom : s.position + run.length ≤ capacity) :
    ∃ cells, s.cells.copy? s.position run = some cells ∧
      Holds { s with cells, position := s.position + run.length }
        { out with buffer := out.buffer ++ run } := by
  obtain ⟨cells, hcopy, hfilled⟩ := s.cells.copy?_spec run hroom
  refine ⟨cells, hcopy, h.passed, ?_, hroom, ?_⟩
  · simp [h.position, ← Array.length_toList]
  · simp [hfilled, h.filled]

theorem Holds.push (h : Holds s out) (b : UInt8) :
    ∃ s', s.push? b = some s' ∧ Holds s' (out.push b) := by
  rw [push?, Output.push, ← h.position]
  by_cases hfull : capacity ≤ s.position
  · obtain ⟨flushed, hflush, hholds, hzero⟩ := h.flush
    obtain ⟨cells, hstore, hstored⟩ := hholds.store (by rw [hzero]; decide) b
    rw [if_pos hfull, if_pos hfull, hflush]
    exact ⟨_, by simp [hstore], hstored⟩
  · obtain ⟨cells, hstore, hstored⟩ := h.store (Nat.lt_of_not_le hfull) b
    rw [if_neg hfull, if_neg hfull]
    exact ⟨_, by simp [hstore], hstored⟩

theorem Holds.append (h : Holds s out) (run : Bytes) :
    ∃ s', s.append? run = some s' ∧ Holds s' (out.append run) := by
  rw [append?, Output.append, ← h.position]
  by_cases hfits : s.position + run.length ≤ capacity
  · obtain ⟨cells, hcopy, hcopied⟩ := h.copy run hfits
    rw [if_pos hfits, if_pos hfits]
    exact ⟨_, by simp [hcopy], hcopied⟩
  · obtain ⟨flushed, hflush, hholds, hzero⟩ := h.flush
    rw [if_neg hfits, if_neg hfits, hflush]
    by_cases hlong : capacity ≤ run.length
    -- a run that no empty buffer holds is passed on as it is
    · refine ⟨{ flushed with passed := flushed.passed ++ run }, by simp [hlong], ?_⟩
      rw [if_pos hlong]
      exact ⟨by simp [hholds.passed], hholds.position, hholds.room, hholds.filled⟩
    · obtain ⟨cells, hcopy, hcopied⟩ := hholds.copy run (by rw [hzero]; omega)
      rw [hzero] at hcopy hcopied
      refine ⟨{ flushed with cells, position := run.length }, by simp [hlong, hcopy], ?_⟩
      rw [if_neg hlong]
      simpa [Output.flush] using hcopied

theorem Holds.after (h : Holds s out) (w : Write) :
    ∃ s', s.after? w = some s' ∧ Holds s' (out.after w) := by
  cases w with
  | byte b => exact h.push b
  | run bytes => exact h.append bytes

theorem Holds.foldl (h : Holds s out) (writes : List Write) :
    ∃ s', writes.foldlM after? s = some s' ∧ Holds s' (writes.foldl Output.after out) := by
  induction writes generalizing s out with
  | nil => exact ⟨s, rfl, h⟩
  | cons w writes ih =>
    obtain ⟨s', hstep, hnext⟩ := h.after w
    obtain ⟨s'', hrun, hlast⟩ := ih hnext
    exact ⟨s'', by rw [List.foldlM_cons, hstep, Option.bind_eq_bind, Option.bind_some, hrun], hlast⟩

theorem Holds.take (h : Holds s out) : s.take? = some out.take := by
  obtain ⟨s', hflush, hholds, -⟩ := h.flush
  rw [take?, hflush, Option.bind_eq_bind, Option.bind_some, hholds.passed]
  rfl

end Store

/-- What becomes of a series of writes. -/
structure Buffering (writes : List Write) : Prop where
  take : (ofWrites writes).take = writes.flatMap Write.bytes
  fits : ∀ written, written <+: writes → (ofWrites written).buffer.size ≤ capacity
  /-- In cells that hold anything at first, every byte finds its place; after each write the filled
  cells are the buffer, and what would be taken is the same. -/
  stored : ∀ cells written, written <+: writes →
    ∃ s, written.foldlM Store.after? ⟨[], cells, 0⟩ = some s ∧ s.Holds (ofWrites written) ∧
      s.take? = some (written.flatMap Write.bytes)

theorem take_ofWrites (writes : List Write) :
    (ofWrites writes).take = writes.flatMap Write.bytes := by
  rw [ofWrites, take_foldl, take_empty, List.nil_append]

theorem buffering (writes : List Write) : Buffering writes where
  take := take_ofWrites writes
  fits written _ := by
    obtain ⟨s, -, hs⟩ := (Store.holds_empty (Vector.replicate capacity 0)).foldl written
    exact hs.position ▸ hs.room
  stored cells written _ := by
    obtain ⟨s, hrun, hs⟩ := (Store.holds_empty cells).foldl written
    have htake := hs.take
    rw [← ofWrites, take_ofWrites] at htake
    exact ⟨s, hrun, hs, htake⟩

end JsonCodec.Output
