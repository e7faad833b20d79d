import Mathlib
import JsonCodec.Decode.Reader

set_option autoImplicit false

namespace JsonCodec.Runs

section
variable {ε σ α β : Type}

theorem bind_run (x : EStateM ε σ α) (f : α → EStateM ε σ β) (s : σ) :
    (x >>= f) s = match x s with
      | .ok a s => f a s
      | .error e s => .error e s := rfl

theorem map_run (f : α → β) (x : EStateM ε σ α) (s : σ) :
    (f <$> x) s = match x s with
      | .ok a s => .ok (f a) s
      | .error e s => .error e s := by
  change EStateM.map f x s = _
  rw [EStateM.map]
  cases x s <;> rfl

@[simp] theorem pure_run (a : α) (s : σ) : (pure a : EStateM ε σ α) s = .ok a s := rfl

@[simp] theorem get_run (s : σ) : (get : EStateM ε σ σ) s = .ok s s := rfl

@[simp] theorem set_run (s s' : σ) : (set s' : EStateM ε σ PUnit) s = .ok ⟨⟩ s' := rfl

@[simp] theorem modifyGet_run (f : σ → α × σ) (s : σ) :
    (modifyGet f : EStateM ε σ α) s = .ok (f s).1 (f s).2 := rfl

@[simp] theorem throw_run (e : ε) (s : σ) : (throw e : EStateM ε σ α) s = .error e s := rfl

theorem bind_eq_ok {x : EStateM ε σ α} {f : α → EStateM ε σ β} {s s' : σ} {b : β} :
    (x >>= f) s = .ok b s' ↔ ∃ a s₁, x s = .ok a s₁ ∧ f a s₁ = .ok b s' := by
  rw [bind_run]
  cases x s <;> simp

end

open Reader (scan)

variable {α : Type}

theorem scan_run (s : Scanner α) (text : Bytes) (keys : KeyCache) :
    scan s ⟨text, keys⟩ = match s text with
      | .ok a rest => .ok a ⟨rest, keys⟩
      | .error fault rest => .error fault ⟨rest, keys⟩ := rfl

theorem scan_eq_ok {s : Scanner α} {text : Bytes} {keys : KeyCache} {a : α} {cursor : Cursor} :
    scan s ⟨text, keys⟩ = .ok a cursor ↔ ∃ rest, s text = .ok a rest ∧ cursor = ⟨rest, keys⟩ := by
  rw [scan_run]
  cases s text with
  | ok b rest => simp [eq_comm]
  | error fault rest => simp

@[simp] theorem skipSpace_run (text : Bytes) :
    Scanner.skipSpace text = .ok ⟨⟩ (text.dropWhile Byte.isSpace) := rfl

@[simp] theorem skip_run (text : Bytes) (keys : KeyCache) :
    Reader.skip ⟨text, keys⟩ = .ok ⟨⟩ ⟨text.drop 1, keys⟩ := rfl

theorem peek_run (text : Bytes) (keys : KeyCache) :
    Reader.peek ⟨text, keys⟩ = match text.dropWhile Byte.isSpace with
      | [] => .error .unexpectedEnd ⟨[], keys⟩
      | b :: rest => .ok b ⟨b :: rest, keys⟩ := by
  rw [Reader.peek, scan_run]
  simp only [bind_run, skipSpace_run, get_run]
  cases text.dropWhile Byte.isSpace with
  | nil => rfl
  | cons b rest => rfl

theorem expect_run (wanted : UInt8) (text : Bytes) :
    Scanner.expect wanted text = match text with
      | [] => .error .unexpectedEnd []
      | b :: rest =>
        if b = wanted then .ok ⟨⟩ rest else .error (.expectedByte wanted b) (b :: rest) := by
  cases text with
  | nil => rfl
  | cons b rest =>
    simp only [Scanner.expect, bind_run, get_run]
    split <;> rfl

theorem word_run (spelling text : Bytes) :
    Scanner.word spelling text =
      if spelling.isPrefixOf text then .ok ⟨⟩ (text.drop spelling.length)
      else if text.isPrefixOf spelling then .error .unexpectedEnd []
      else .error (.expectedWord spelling) text := by
  simp only [Scanner.word, bind_run, get_run]
  split
  · rfl
  · split <;> rfl

end JsonCodec.Runs
