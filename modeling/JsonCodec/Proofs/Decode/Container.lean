import Mathlib
import JsonCodec.Proofs.Runs
import JsonCodec.Proofs.Grammar.Tree

set_option autoImplicit false

namespace JsonCodec.Reader
open Grammar Runs

variable {α : Type}

theorem dropWhile_blanks (blanks : Blanks) {rest : Bytes} (h : NotAhead Byte.isSpace rest) :
    (blanks.text ++ rest).dropWhile Byte.isSpace = rest :=
  dropWhile_append_notAhead blanks.isSpace h

theorem exists_blanks (text : Bytes) :
    ∃ blanks : Blanks, text = blanks.text ++ text.dropWhile Byte.isSpace :=
  ⟨⟨text.takeWhile Byte.isSpace, fun _ hb => List.mem_takeWhile_imp hb⟩,
    List.takeWhile_append_dropWhile.symm⟩

theorem peek_blanks (blanks : Blanks) {b : UInt8} (hb : Byte.isSpace b = false) (rest : Bytes)
    (keys : KeyCache) : peek ⟨blanks.text ++ b :: rest, keys⟩ = .ok b ⟨b :: rest, keys⟩ := by
  rw [peek_run, dropWhile_blanks blanks (by simpa [NotAhead] using hb)]

theorem peek_eq_ok {text : Bytes} {keys : KeyCache} {b : UInt8} {cursor : Cursor}
    (h : peek ⟨text, keys⟩ = .ok b cursor) :
    ∃ (blanks : Blanks) (rest : Bytes), text = blanks.text ++ b :: rest ∧
      Byte.isSpace b = false ∧ cursor = ⟨b :: rest, keys⟩ := by
  obtain ⟨blanks, ht⟩ := exists_blanks text
  have hn := notAhead_dropWhile Byte.isSpace text
  rw [peek_run] at h
  cases hd : text.dropWhile Byte.isSpace with
  | nil => simp [hd] at h
  | cons c rest =>
    rw [hd] at ht hn h
    obtain ⟨rfl, rfl⟩ := EStateM.Result.ok.inj h
    exact ⟨blanks, rest, ht, hn c rfl, rfl⟩

def SkipsBlanks (reader : Reader α) : Prop :=
  ∀ text keys, reader ⟨text.dropWhile Byte.isSpace, keys⟩ = reader ⟨text, keys⟩

theorem skipsBlanks_peek (next : UInt8 → Reader α) : SkipsBlanks (peek >>= next) := by
  intro text keys
  simp only [bind_run, peek_run, List.dropWhile_idempotent]

theorem SkipsBlanks.run {reader : Reader α} (h : SkipsBlanks reader) (blanks : Blanks)
    {rest : Bytes} (hr : NotAhead Byte.isSpace rest) (keys : KeyCache) :
    reader ⟨blanks.text ++ rest, keys⟩ = reader ⟨rest, keys⟩ := by
  rw [← h, dropWhile_blanks blanks hr]

theorem skipsBlanks_items (c : Container) {item : Reader α} (h : SkipsBlanks item) (fuel : Nat) :
    SkipsBlanks (items c item (fuel + 1)) := by
  intro text keys
  simp only [items, bind_run, h text keys]

theorem close_ne_comma (c : Container) : c.close ≠ Byte.comma := by cases c <;> decide

theorem isSpace_close (c : Container) : Byte.isSpace c.close = false := by cases c <;> decide

theorem items_last {c : Container} {item : Reader α} {a : α} {text rest : Bytes}
    {keys keys' : KeyCache} (blanks : Blanks)
    (h : item ⟨text, keys⟩ = .ok a ⟨blanks.text ++ c.close :: rest, keys'⟩) (fuel : Nat) :
    items c item (fuel + 1) ⟨text, keys⟩ = .ok [a] ⟨rest, keys'⟩ := by
  simp only [items, bind_run, h, peek_blanks blanks (isSpace_close c), if_neg (close_ne_comma c),
    ↓reduceIte, skip_run, pure_run, List.drop_one, List.tail_cons]

theorem items_more {c : Container} {item : Reader α} {a : α} {as : List α} {text rest : Bytes}
    {keys keys' : KeyCache} {cursor : Cursor} (blanks : Blanks)
    (h : item ⟨text, keys⟩ = .ok a ⟨blanks.text ++ Byte.comma :: rest, keys'⟩) {fuel : Nat}
    (hs : items c item fuel ⟨rest, keys'⟩ = .ok as cursor) :
    items c item (fuel + 1) ⟨text, keys⟩ = .ok (a :: as) cursor := by
  have hcomma : Byte.isSpace Byte.comma = false := by decide
  simp only [items, bind_run, h, peek_blanks blanks hcomma, ↓reduceIte, skip_run, pure_run,
    List.drop_one, List.tail_cons, hs]

theorem items_eq_ok {c : Container} {item : Reader α} {fuel : Nat} {as : List α} {s s' : Cursor}
    (h : items c item (fuel + 1) s = .ok as s') :
    ∃ a blanks rest keys,
      (item s = .ok a ⟨Blanks.text blanks ++ c.close :: rest, keys⟩ ∧ as = [a] ∧ s' = ⟨rest, keys⟩) ∨
      ∃ as', item s = .ok a ⟨Blanks.text blanks ++ Byte.comma :: rest, keys⟩ ∧ as = a :: as' ∧
        items c item fuel ⟨rest, keys⟩ = .ok as' s' := by
  rw [items] at h
  obtain ⟨a, ⟨text, keys⟩, hitem, h⟩ := bind_eq_ok.1 h
  obtain ⟨b, cursor, hp, h⟩ := bind_eq_ok.1 h
  obtain ⟨blanks, rest, rfl, -, rfl⟩ := peek_eq_ok hp
  by_cases hcomma : b = Byte.comma
  · subst hcomma
    simp only [↓reduceIte, bind_run, skip_run, List.drop_one, List.tail_cons] at h
    cases hs : items c item fuel ⟨rest, keys⟩ with
    | error e s => simp [hs] at h
    | ok as' s =>
      simp only [hs, pure_run, EStateM.Result.ok.injEq] at h
      obtain ⟨rfl, rfl⟩ := h
      exact ⟨a, blanks, rest, keys, .inr ⟨as', hitem, rfl, hs⟩⟩
  · by_cases hclose : b = c.close
    · subst hclose
      simp only [if_neg hcomma, ↓reduceIte, bind_run, skip_run, List.drop_one, List.tail_cons,
        pure_run, EStateM.Result.ok.injEq] at h
      obtain ⟨rfl, rfl⟩ := h
      exact ⟨a, blanks, rest, keys, .inl ⟨hitem, rfl, rfl⟩⟩
    · simp [hcomma, hclose] at h

theorem content_empty (c : Container) (item : Reader α) (blanks : Blanks) (rest : Bytes)
    (keys : KeyCache) :
    content c item ⟨blanks.text ++ c.close :: rest, keys⟩ = .ok [] ⟨rest, keys⟩ := by
  simp only [content, bind_run, peek_blanks blanks (isSpace_close c), ↓reduceIte, skip_run,
    pure_run, List.drop_one, List.tail_cons]

theorem content_items {c : Container} {item : Reader α} (h : SkipsBlanks item) {text : Bytes}
    {b : UInt8} {rest : Bytes} (ht : text.dropWhile Byte.isSpace = b :: rest) (hb : b ≠ c.close)
    (keys : KeyCache) :
    content c item ⟨text, keys⟩ = items c item (rest.length + 2) ⟨text, keys⟩ := by
  rw [← skipsBlanks_items c h (rest.length + 1) text keys, ht]
  simp only [content, bind_run, peek_run, ht, if_neg hb, get_run, List.length_cons]

theorem content_eq_ok {c : Container} {item : Reader α} (h : SkipsBlanks item) {text : Bytes}
    {keys : KeyCache} {as : List α} {cursor : Cursor}
    (hs : content c item ⟨text, keys⟩ = .ok as cursor) :
    (∃ (blanks : Blanks) (rest : Bytes), text = blanks.text ++ c.close :: rest ∧ as = [] ∧
        cursor = ⟨rest, keys⟩) ∨
      ∃ fuel, items c item fuel ⟨text, keys⟩ = .ok as cursor := by
  obtain ⟨b, s, hp, -⟩ := bind_eq_ok.1 hs
  obtain ⟨blanks, rest, rfl, hb, rfl⟩ := peek_eq_ok hp
  by_cases hclose : b = c.close
  · subst hclose
    rw [content_empty] at hs
    obtain ⟨rfl, rfl⟩ := EStateM.Result.ok.inj hs
    exact .inl ⟨blanks, rest, rfl, rfl, rfl⟩
  · rw [content_items h (dropWhile_blanks blanks (by simpa [NotAhead] using hb)) hclose] at hs
    exact .inr ⟨_, hs⟩

end JsonCodec.Reader
